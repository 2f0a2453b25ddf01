import Mathlib.Data.List.Forall2
import Omniqueue.InterleavedEngine

/-!
# Once consumers stop, every in-flight message comes back

An idle reaper run alone with every command succeeding performs exactly one iteration of
`reenqueue_timed_out_messages` (`reapsTo_iteration`). When every entry of the processing list is
overdue and decodes, each such iteration takes off the first `BATCH_SIZE + 1` entries, so iterating
empties the list. Every frame written carries an id of the tick it was written at, so once the
clock has passed the ack deadline every in-flight entry is overdue: with consumers stopped, ticks
and one reaper bring every in-flight message below its attempt limit back to the main list, and
drop the others.
-/

namespace Omniqueue

section
variable (K : KsuidMs) (cfg : Config)

theorem Engine.exec_append (e : Engine) (xs ys : List Action) :
    e.exec K cfg (xs ++ ys) = (e.exec K cfg xs).bind fun e' => e'.exec K cfg ys := by
  induction xs generalizing e with
  | nil => rfl
  | cons a xs ih => simp only [List.cons_append, Engine.exec_cons, ih, Option.bind_assoc]

/-- Ticks only advance the clock. -/
theorem Engine.exec_ticks : ∀ (n : Nat) (e : Engine),
    e.exec K cfg (List.replicate n .tick) = some { e with clock := e.clock + n }
  | 0, _ => rfl
  | n + 1, e => by
    rw [List.replicate_succ, Engine.exec_cons]
    show ({ e with clock := e.clock + 1 } : Engine).exec K cfg _ = _
    rw [Engine.exec_ticks n, Nat.add_assoc, Nat.add_comm 1 n]

/-- A step writes to the lists only frames under an id of the current tick, and never turns the
clock back. -/
theorem Engine.step_lists {e e' : Engine} {a : Action} (h : e.step K cfg a = some e') :
    e.clock ≤ e'.clock ∧ ∀ f ∈ e'.redis.main ++ e'.redis.processing,
      f ∈ e.redis.main ++ e.redis.processing ∨ ∃ rand x, f = internalToListPayload (K.text e.clock rand) x := by
  refine ⟨Engine.clock_le_step K cfg h, fun f hf => ?_⟩
  cases a with
  | tick => cases h; exact .inl hf
  | sendRaw p rand ok =>
    cases h
    cases ok
    · exact .inl hf
    · simp only [sendRaw_main, List.cons_append, List.mem_cons] at hf
      exact hf.elim (fun hf => .inr ⟨rand, (p, 0), hf⟩) .inl
  | receive t reply =>
    rcases Engine.step_receive_cases K cfg h with rfl | ⟨f', main, hm, ⟨_, -, rfl⟩ | ⟨-, rfl⟩⟩
    · exact .inl hf
    all_goals
      simp only [hm, List.mem_append, List.mem_cons, List.not_mem_nil, or_false] at hf ⊢
      exact .inl (or_assoc.2 hf)
  | finalize j c ok =>
    obtain ⟨d, -, rfl⟩ := Engine.step_finalize_eq_some K cfg h
    rcases call_processing d.acker c ok e.redis.processing with hl | hl <;> simp only [hl] at hf
    exacts [.inl hf, .inl (((List.erase_sublist _ _).append_left _).subset hf)]
  | reap i rand ok =>
    obtain ⟨pc, -, rfl⟩ := Engine.step_reap_eq_some K cfg h
    rcases pc.step_redis cfg.maxReceives (K.text (e.clock - cfg.ackDeadline) rand) (K.text e.clock rand) ok
      e.redis with hr | ⟨_, _, _, x, _, _, hr⟩ | ⟨_, key, _, _, _, hr⟩ <;> rw [hr] at hf
    · exact .inl hf
    · simp only [rpush, List.append_assoc, List.mem_append, List.mem_singleton] at hf
      rcases hf with hf | rfl | hf
      exacts [.inl (List.mem_append_left _ hf), .inr ⟨rand, x, rfl⟩, .inl (List.mem_append_right _ hf)]
    · exact .inl (((List.erase_sublist key _).append_left _).subset hf)

/-- Every entry of the two lists is a frame written under an id made no later than the clock. -/
def Engine.Stamped (e : Engine) : Prop :=
  ∀ f ∈ e.redis.main ++ e.redis.processing, ∃ t r x, t ≤ e.clock ∧ f = internalToListPayload (K.text t r) x

theorem Engine.Stamped.step {e e' : Engine} {a : Action} (hS : e.Stamped K) (h : e.step K cfg a = some e') :
    e'.Stamped K := by
  obtain ⟨hc, hl⟩ := Engine.step_lists K cfg h
  intro f hf
  rcases hl f hf with hf | ⟨rand, x, rfl⟩
  · obtain ⟨t, r, x, ht, rfl⟩ := hS f hf
    exact ⟨t, r, x, ht.trans hc, rfl⟩
  · exact ⟨e.clock, rand, x, hc, rfl⟩

end

section
variable (K : KsuidMs) (cfg : Config) (i rand : Nat)

/-- Reaper `i` alone, with every command succeeding and the clock standing still, takes `e` to
`e'`. -/
def Engine.ReapsTo (e e' : Engine) : Prop :=
  ∃ n, e.exec K cfg (List.replicate n (.reap i rand true)) = some e'

theorem Engine.ReapsTo.trans {e₁ e₂ e₃ : Engine} (h₁ : e₁.ReapsTo K cfg i rand e₂)
    (h₂ : e₂.ReapsTo K cfg i rand e₃) : e₁.ReapsTo K cfg i rand e₃ := by
  obtain ⟨n₁, h₁⟩ := h₁
  obtain ⟨n₂, h₂⟩ := h₂
  exact ⟨n₁ + n₂, by rw [List.replicate_add, Engine.exec_append, h₁, Option.some_bind, h₂]⟩

theorem Engine.ReapsTo.step {e : Engine} {pc : ReaperPc} (hpc : e.reapers[i]? = some pc) (pc' : ReaperPc)
    (r : Redis)
    (h : pc.step cfg.maxReceives (K.text (e.clock - cfg.ackDeadline) rand) (K.text e.clock rand) true e.redis =
      (pc', r)) :
    e.ReapsTo K cfg i rand { e with redis := r, reapers := e.reapers.set i pc' } :=
  ⟨1, by simp only [List.replicate_one, Engine.exec_cons, Engine.step, hpc, h, Option.some_bind, Engine.exec_nil]⟩

theorem getElem?_reapers_set {e : Engine} {pc : ReaperPc} (hpc : e.reapers[i]? = some pc) (r : Redis)
    (pc' : ReaperPc) : ({ e with redis := r, reapers := e.reapers.set i pc' } : Engine).reapers[i]? = some pc' :=
  List.getElem?_set_self (List.getElem?_eq_some_iff.1 hpc).1

/-- Reaper `i`, scanning its batch, runs the loop `for key in keys` of the iteration. -/
theorem reapsTo_batch (lim : Bytes) :
    ∀ (keys : List Bytes) (e : Engine), e.reapers[i]? = some (.scanning lim keys) →
    e.ReapsTo K cfg i rand
      { e with redis := (reenqueueBatch (fun _ => K.text e.clock rand) lim cfg.maxReceives keys e.redis).1,
               reapers := e.reapers.set i .idle }
  | [], e, hpc => .step K cfg i rand hpc .idle e.redis rfl
  | key :: keys, e, hpc => by
    cases hle : lexLe key lim
    · have h₂ := reapsTo_batch lim keys _ (getElem?_reapers_set i hpc e.redis (.scanning lim keys))
      rw [List.set_set] at h₂
      rw [reenqueueBatch_not_overdue _ _ _ hle]
      exact (Engine.ReapsTo.step K cfg i rand hpc _ _ (by simp [ReaperPc.step, hle])).trans K cfg i rand h₂
    cases hx : internalFromList key with
    | error err =>
      rw [reenqueueBatch_rejected _ _ _ hle hx]
      exact .step K cfg i rand hpc .idle e.redis (by simp [ReaperPc.step, hle, hx])
    | ok x =>
      let r₁ : Redis := if x.2 ≥ cfg.maxReceives then e.redis
        else { e.redis with main := rpush e.redis.main (internalToListPayload (K.text e.clock rand) x) }
      have h₁ := Engine.ReapsTo.step K cfg i rand hpc (.removing lim key keys) r₁
        (by by_cases hmax : x.2 ≥ cfg.maxReceives <;> simp [r₁, ReaperPc.step, hle, hx, hmax])
      have h₂ := Engine.ReapsTo.step K cfg i rand (getElem?_reapers_set i hpc r₁ (.removing lim key keys))
        (.scanning lim keys) { r₁ with processing := lrem r₁.processing key } rfl
      have h₃ := reapsTo_batch lim keys _
        (getElem?_reapers_set i (getElem?_reapers_set i hpc r₁ (.removing lim key keys))
          { r₁ with processing := lrem r₁.processing key } (.scanning lim keys))
      have h := (h₁.trans K cfg i rand h₂).trans K cfg i rand h₃
      rw [List.set_set, List.set_set] at h
      rw [reenqueueBatch_accepted _ _ _ hle hx]
      exact h

/-- An idle reaper run alone performs one iteration of `reenqueue_timed_out_messages`, whatever it
meets, with the validity limit and the new ids of the current tick. -/
theorem reapsTo_iteration (e : Engine) (hpc : e.reapers[i]? = some .idle) :
    e.ReapsTo K cfg i rand
      { e with redis := (reenqueueTimedOutMessages (fun _ => K.text e.clock rand)
                  (K.text (e.clock - cfg.ackDeadline) rand) cfg.maxReceives e.redis).1,
               reapers := e.reapers.set i .idle } := by
  obtain ⟨⟨main, processing⟩, clock, deliveries, reapers⟩ := e
  cases processing with
  | nil => exact .step K cfg i rand hpc .idle _ (by simp [ReaperPc.step, reenqueueTimedOutMessages, lrange])
  | cons key keys =>
    let lim := K.text (clock - cfg.ackDeadline) rand
    cases hk : lexLe key lim
    · rw [reenqueueTimedOutMessages_of_head _ _ _ hk]
      exact .step K cfg i rand hpc .idle _ (by simp [ReaperPc.step, lrange, lim, hk])
    · rw [reenqueueTimedOutMessages_of_overdue_head _ _ _ rfl hk]
      let r : Redis := ⟨main, key :: keys⟩
      have h₁ := Engine.ReapsTo.step K cfg i rand hpc (.peeked lim) r (by simp [ReaperPc.step, lrange, lim, hk, r])
      have h₂ := Engine.ReapsTo.step K cfg i rand (getElem?_reapers_set i hpc r (.peeked lim))
        (.scanning lim (lrange (key :: keys) 0 batchSize)) r rfl
      have h₃ := reapsTo_batch K cfg i rand lim _ _
        (getElem?_reapers_set i (getElem?_reapers_set i hpc r (.peeked lim)) r
          (.scanning lim (lrange (key :: keys) 0 batchSize)))
      have h := (h₁.trans K cfg i rand h₂).trans K cfg i rand h₃
      rw [List.set_set, List.set_set] at h
      exact h

/-- An iteration over a processing list whose entries are all overdue and decode takes off its first
`BATCH_SIZE + 1` entries. -/
theorem reapsTo_iteration_of_all_overdue (e : Engine) (hpc : e.reapers[i]? = some .idle)
    (h : ∀ k ∈ e.redis.processing, lexLe k (K.text (e.clock - cfg.ackDeadline) rand) = true ∧
      ∃ x, internalFromList k = .ok x) :
    e.ReapsTo K cfg i rand
      { e with redis := ⟨e.redis.main ++ (e.redis.processing.take (batchSize + 1)).filterMap
                    (reclaimedFrame (fun _ => K.text e.clock rand) (K.text (e.clock - cfg.ackDeadline) rand)
                      cfg.maxReceives),
                  e.redis.processing.drop (batchSize + 1)⟩,
               reapers := e.reapers.set i .idle } := by
  have h₁ := reapsTo_iteration K cfg i rand e hpc
  rwa [reenqueueTimedOutMessages_of_all_overdue _ _ _ _ h] at h₁

/-- With every entry of the processing list overdue and decodable, an idle reaper run alone empties
the processing list, batch after batch, and pushes back the frames of the entries below the attempt
limit in the order of the list. -/
theorem reapsTo_drain : ∀ (bound : Nat) (e : Engine), e.redis.processing.length ≤ bound →
    e.reapers[i]? = some .idle →
    (∀ k ∈ e.redis.processing, lexLe k (K.text (e.clock - cfg.ackDeadline) rand) = true ∧
      ∃ x, internalFromList k = .ok x) →
    e.ReapsTo K cfg i rand
      { e with redis := ⟨e.redis.main ++ e.redis.processing.filterMap (reclaimedFrame (fun _ => K.text e.clock rand)
                  (K.text (e.clock - cfg.ackDeadline) rand) cfg.maxReceives), []⟩,
               reapers := e.reapers.set i .idle } := by
  intro bound
  induction bound with
  | zero =>
    intro e hlen hpc _
    have hp := List.eq_nil_of_length_eq_zero (Nat.le_zero.1 hlen)
    simpa [hp] using reapsTo_iteration_of_all_overdue K cfg i rand e hpc (by simp [hp])
  | succ bound ih =>
    intro e hlen hpc h
    have h₁ := reapsTo_iteration_of_all_overdue K cfg i rand e hpc h
    -- the next iterations drain what this one left behind the batch
    rw [← List.take_append_drop (batchSize + 1) e.redis.processing, List.filterMap_append, ← List.append_assoc,
      ← List.set_set ReaperPc.idle ReaperPc.idle e.reapers i]
    exact h₁.trans K cfg i rand (ih _ (by simp only [List.length_drop]; omega) (getElem?_reapers_set i hpc _ .idle)
      fun k hk => h k (List.mem_of_mem_drop hk))

end

/-- A `filterMap` that keeps exactly the elements passing `p` relates each of them to what it
keeps. -/
theorem forall₂_filter_filterMap {α β : Type} {P : α → β → Prop} {p : α → Bool} {g : α → Option β} :
    ∀ {l : List α}, (∀ a ∈ l, if p a then ∃ b, g a = some b ∧ P a b else g a = none) →
      List.Forall₂ P (l.filter p) (l.filterMap g)
  | [], _ => .nil
  | a :: l, h => by
    have ih := forall₂_filter_filterMap fun a' ha' => h a' (List.mem_cons_of_mem _ ha')
    have ha := h a (List.mem_cons_self _ _)
    cases hp : p a <;> simp only [hp] at ha
    · simpa [List.filter_cons, hp, List.filterMap_cons_none ha] using ih
    · obtain ⟨b, hb, hab⟩ := ha
      rw [List.filterMap_cons_some hb]
      simpa [List.filter_cons, hp] using List.Forall₂.cons hab ih

section
variable (K : KsuidMs) (cfg : Config)

/-- Once consumers stop, no message stays in flight. From every state a run can reach from the
initial engine, with ids that sort every frame of an earlier tick at or below a later id: ticking
past the ack deadline and then letting any idle reaper run alone with every command succeeding
empties the processing list. Every in-flight entry below the attempt limit comes back at the tail
of the main list, which `BRPOPLPUSH` pops first, in the order of the processing list, with its
payload and one more recorded receive; every entry at the limit is dropped. The deliveries
consumers hold are untouched. -/
theorem inflight_messages_return_to_main
    (hK : ∀ (t' t r' r : Nat) (rest : Bytes), t' < t → lexLe (K.text t' r' ++ rest) (K.text t r) = true)
    (n : Nat) (acts : List Action) (e : Engine)
    (h : (Engine.init cfg n).exec K cfg acts = some e) {i : Nat} (hidle : e.reapers[i]? = some .idle) (rand : Nat) :
    ∃ k e', e.exec K cfg (List.replicate (cfg.ackDeadline + 1) .tick ++ List.replicate k (.reap i rand true)) =
        some e' ∧
      e'.redis.processing = [] ∧ e'.deliveries = e.deliveries ∧
      ∃ back, e'.redis.main = e.redis.main ++ back ∧
        List.Forall₂ (fun k f => ∃ q c, internalFromList k = .ok (q, c) ∧ internalFromList f = .ok (q, c + 1))
          (e.redis.processing.filter (belowMaxReceives cfg.maxReceives)) back := by
  have hS := Engine.exec_induction K cfg (fun (_ : Unit) e => e.Stamped K) (fun _ _ => ())
    (fun _ => True) (fun _ _ _ _ _ hS h => hS.step K cfg h) acts () _ e (fun _ _ => trivial)
    (by simp [Engine.Stamped, Engine.init, Redis.empty]) h
  -- past the deadline every entry of the processing list is overdue
  let eT : Engine := { e with clock := e.clock + (cfg.ackDeadline + 1) }
  have hT : eT.clock - cfg.ackDeadline = e.clock + 1 := by simp only [eT]; omega
  have hover : ∀ k ∈ eT.redis.processing, lexLe k (K.text (eT.clock - cfg.ackDeadline) rand) = true ∧
      ∃ x, internalFromList k = .ok x := by
    intro k hk
    obtain ⟨t, r, ⟨q, c⟩, ht, rfl⟩ := hS k (List.mem_append_right _ hk)
    exact ⟨hT ▸ hK _ _ _ _ _ (Nat.lt_succ_of_le ht), _, internalFromList_internalToListPayload (K.sep_not_mem _ _) _⟩
  obtain ⟨k, hk⟩ := reapsTo_drain K cfg i rand _ eT le_rfl hidle hover
  have hrun := ((Engine.exec_append K cfg e (List.replicate (cfg.ackDeadline + 1) .tick)
    (List.replicate k (.reap i rand true))).trans (by rw [Engine.exec_ticks, Option.some_bind])).trans hk
  refine ⟨k, _, hrun, rfl, rfl, _, rfl, forall₂_filter_filterMap fun f hf => ?_⟩
  obtain ⟨hle, x, hx⟩ := hover f hf
  by_cases hlt : x.2 < cfg.maxReceives
  · simp only [belowMaxReceives_of_ok hx, decide_eq_true hlt, if_true]
    exact ⟨_, reclaimedFrame_of_ok _ _ _ hle hx hlt, x.1, x.2, hx,
      internalFromList_internalToListPayload (K.sep_not_mem _ _) x⟩
  · simp [belowMaxReceives_of_ok hx, reclaimedFrame, hx, hlt, hle]

end

/-- A message received and never finalized: after three ticks one reaper puts it back, read once
more. -/
theorem inflight_messages_return_to_main_after_receive :
    let acts : List Action := [.sendRaw payloadP 0 true, .receive 0 .arrived]
    let e : Engine :=
      ⟨⟨[], [tallyFrame 2 payloadP]⟩, 2, [⟨payloadP, ⟨tallyFrame 2 payloadP, false, 5, 1⟩⟩], [.idle]⟩
    (∀ (t' t r' r : Nat) (rest : Bytes), t' < t →
        lexLe (tallyKsuid.text t' r' ++ rest) (tallyKsuid.text t r) = true) ∧
      (Engine.init ⟨2, 5⟩ 1).exec tallyKsuid ⟨2, 5⟩ acts = some e ∧ e.reapers[0]? = some .idle ∧
      ∃ k e', e.exec tallyKsuid ⟨2, 5⟩ (List.replicate (2 + 1) .tick ++ List.replicate k (.reap 0 0 true)) =
          some e' ∧
        e'.redis.processing = [] ∧ e'.deliveries = e.deliveries ∧
        ∃ back, e'.redis.main = e.redis.main ++ back ∧
          List.Forall₂ (fun k f => ∃ q c, internalFromList k = .ok (q, c) ∧ internalFromList f = .ok (q, c + 1))
            (e.redis.processing.filter (belowMaxReceives 5)) back := by
  intro acts e
  have h : (Engine.init ⟨2, 5⟩ 1).exec tallyKsuid ⟨2, 5⟩ acts = some e := by decide
  exact ⟨fun _ _ r' r rest h => tallyKsuid_lexLe_of_lt r' r rest h, h, rfl,
    inflight_messages_return_to_main tallyKsuid ⟨2, 5⟩ (fun _ _ r' r rest h => tallyKsuid_lexLe_of_lt r' r rest h)
      1 acts e h rfl 0⟩

end Omniqueue

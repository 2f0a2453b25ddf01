import Omniqueue.ReaperCommands

/-!
# The engine: producers, consumers, ackers and reapers interleaved

One state holds the two lists, a clock, the deliveries consumers hold, and one reaper iteration
per engine instance sharing the lists (`background_task_processing`). A step is one Redis command
of one party, or a tick of the clock. Every command may fail, which its `ok` flag says; a failed
command changes nothing. A consumer's `BRPOPLPUSH` may also run on the server with its reply lost
(`Reply`). New ids come from the clock and a random part, through `KsuidMs`.
-/

namespace Omniqueue

/-- The settings the code reads: `ack_deadline_ms` in ticks of the id clock, and `max_receives`,
shared by the consumers (`RedisConsumer::max_receives`) and the reapers. -/
structure Config where
  ackDeadline : Nat
  maxReceives : Nat
  deriving DecidableEq, Repr

structure Engine where
  redis : Redis
  clock : Nat
  deliveries : List Delivery
  reapers : List ReaperPc
  deriving DecidableEq, Repr

inductive Action where
  | tick
  | sendRaw (payload : Bytes) (rand : Nat) (ok : Bool)
  | receive (timeout : Nat) (reply : Reply)
  | finalize (i : Nat) (call : AckCall) (ok : Bool)
  | reap (i : Nat) (rand : Nat) (ok : Bool)
  deriving DecidableEq, Repr

/-- The payload an action sends, when it is a successful `send_raw`. -/
def Action.sent : Action → Option Bytes
  | .sendRaw p _ true => some p
  | _ => none

/-- A receive whose reply is lost: its `BRPOPLPUSH` may have moved a frame that no delivery holds. -/
def Action.losesReply : Action → Bool
  | .receive _ .lost => true
  | _ => false

/-- The payloads sent in a run, in send order. -/
def sentPayloads (acts : List Action) : List Bytes := acts.filterMap Action.sent

/-- Empty lists with `n` engine instances, each reaper between iterations. The clock starts at the
ack deadline, so that `now - ack_deadline` is a time, as it is for the wall clock ids are made
from. -/
def Engine.init (cfg : Config) (n : Nat) : Engine := ⟨Redis.empty, cfg.ackDeadline, [], List.replicate n .idle⟩

section
variable (K : KsuidMs) (cfg : Config)

def Engine.step (e : Engine) : Action → Option Engine
  | .tick => some { e with clock := e.clock + 1 }
  | .sendRaw payload rand ok =>
    some { e with redis := (sendRaw ok (K.text e.clock rand) payload e.redis).2 }
  | .receive timeout reply =>
    (receiveWithTimeout reply timeout cfg.maxReceives e.redis).map fun o =>
      { e with redis := o.2, deliveries := e.deliveries ++ received o.1 }
  | .finalize i c ok =>
    match e.deliveries[i]? with
    | none => none
    | some d =>
      let o := (d.acker.call c).run ok d.acker e.redis.processing
      some { e with redis := { e.redis with processing := o.2.2 },
                    deliveries := e.deliveries.set i { d with acker := o.2.1 } }
  | .reap i rand ok =>
    match e.reapers[i]? with
    | none => none
    | some pc =>
      let o := pc.step cfg.maxReceives (K.text (e.clock - cfg.ackDeadline) rand) (K.text e.clock rand) ok e.redis
      some { e with redis := o.2, reapers := e.reapers.set i o.1 }

def Engine.exec : Engine → List Action → Option Engine
  | e, [] => some e
  | e, a :: acts => (e.step K cfg a).bind fun e' => Engine.exec e' acts

@[simp] theorem Engine.exec_nil (e : Engine) : e.exec K cfg [] = some e := rfl

theorem Engine.exec_cons (e : Engine) (a : Action) (acts : List Action) :
    e.exec K cfg (a :: acts) = (e.step K cfg a).bind fun e' => e'.exec K cfg acts := rfl

/-- Every induction over a run: a property of the state and of a summary of the actions so far
that each allowed step keeps holds at the end of every run of allowed steps. -/
theorem Engine.exec_induction {σ : Type} (P : σ → Engine → Prop) (upd : σ → Action → σ)
    (allowed : Action → Prop)
    (hstep : ∀ s e a e', allowed a → P s e → e.step K cfg a = some e' → P (upd s a) e') :
    ∀ (acts : List Action) (s : σ) (e e' : Engine), (∀ a ∈ acts, allowed a) → P s e →
      e.exec K cfg acts = some e' → P (acts.foldl upd s) e' := by
  intro acts
  induction acts with
  | nil => intro s e e' _ hP h; cases h; exact hP
  | cons a acts ih =>
    intro s e e' hall hP h
    rw [Engine.exec_cons, Option.bind_eq_some] at h
    obtain ⟨e₁, h₁, h₂⟩ := h
    exact ih _ e₁ e' (fun b hb => hall b (List.mem_cons_of_mem _ hb))
      (hstep s e a e₁ (hall a (List.mem_cons_self _ _)) hP h₁) h₂

theorem foldl_append_sent (s : List Bytes) (acts : List Action) :
    acts.foldl (fun s a => s ++ a.sent.toList) s = s ++ sentPayloads acts := by
  induction acts generalizing s with
  | nil => simp [sentPayloads]
  | cons a acts ih => cases h : a.sent <;> simp [ih, sentPayloads, List.filterMap_cons, h]

/-- What a run sent, and how many of its receives lost their reply. -/
theorem foldl_sent_lostReplies (s : List Bytes) (k : Nat) (acts : List Action) :
    acts.foldl (fun s a => (s.1 ++ a.sent.toList, s.2 + if a.losesReply then 1 else 0)) (s, k) =
      (s ++ sentPayloads acts, k + acts.countP Action.losesReply) := by
  induction acts generalizing s k with
  | nil => simp [sentPayloads]
  | cons a acts ih =>
    rw [List.foldl_cons, ih, List.countP_cons]
    cases h : a.sent <;> simp [sentPayloads, List.filterMap_cons, h, Nat.add_assoc, Nat.add_comm (List.countP _ _)]

/-- Runs whose every step satisfies `G`, a condition on the state before, the action and the
state after. -/
inductive Engine.Run (G : Engine → Action → Engine → Prop) : Engine → List Action → Engine → Prop
  | nil (e : Engine) : Engine.Run G e [] e
  | cons {e e' e'' : Engine} {a : Action} {acts : List Action} (h : e.step K cfg a = some e')
      (hG : G e a e') (rest : Engine.Run G e' acts e'') : Engine.Run G e (a :: acts) e''

/-- The run lemma of `Engine.Run`: what every step allowed by `G` keeps holds at the run's end. -/
theorem Engine.Run.induction {G : Engine → Action → Engine → Prop} {σ : Type} (P : σ → Engine → Prop)
    (upd : σ → Action → σ)
    (hstep : ∀ s e a e', e.step K cfg a = some e' → G e a e' → P s e → P (upd s a) e')
    {e e' : Engine} {acts : List Action} (h : Engine.Run K cfg G e acts e') :
    ∀ {s : σ}, P s e → P (acts.foldl upd s) e' := by
  induction h with
  | nil => exact id
  | cons hs hG _ ih => exact fun hP => ih (hstep _ _ _ _ hs hG hP)

/-! ## What one step does -/

/-- Replacing the entry at `i` by one that `f` does not tell apart leaves the image unchanged. -/
theorem map_set_of_get_eq {α β : Type} {l : List α} {i : Nat} {d d' : α} {f : α → β}
    (hd : l[i]? = some d) (hf : f d' = f d) : (l.set i d').map f = l.map f := by
  apply List.ext_getElem?
  intro j
  simp only [List.getElem?_map, List.getElem?_set]
  split_ifs with h₁ h₂
  · subst h₁; simp [hd, hf]
  · subst h₁; simp [List.getElem?_eq_none (Nat.le_of_not_lt h₂)] at hd
  · rfl

/-- A receive step fails or times out with nothing changed, or moves the frame at the pop end of
the main list to the head of the processing list, with a delivery exactly when the reply arrives
and the frame decodes. -/
theorem Engine.step_receive_cases {e e' : Engine} {t : Nat} {reply : Reply}
    (h : e.step K cfg (.receive t reply) = some e') :
    e' = e ∨ ∃ f main, e.redis.main = main ++ [f] ∧
      ((∃ x, internalFromList f = .ok x ∧
        e' = { e with redis := ⟨main, f :: e.redis.processing⟩,
                      deliveries := e.deliveries ++ [internalToDelivery x cfg.maxReceives f] }) ∨
       ((reply = .lost ∨ ∃ err, internalFromList f = .error err) ∧
        e' = { e with redis := ⟨main, f :: e.redis.processing⟩ })) := by
  simp only [Engine.step, Option.map_eq_some'] at h
  obtain ⟨o, ho, rfl⟩ := h
  rcases receiveWithTimeout_cases ho with ⟨hr, hd | ⟨-, -, hd⟩⟩ | ⟨f, main, hm, hr, ⟨-, x, hx, hd⟩ | ⟨hl, hd⟩ | ⟨err, hx, hd⟩⟩
  · left; simp [hr, hd, received]
  · left; simp [hr, hd, received]
  · exact .inr ⟨f, main, hm, .inl ⟨x, hx, by simp [hr, hd, received]⟩⟩
  · exact .inr ⟨f, main, hm, .inr ⟨.inl hl, by simp [hr, hd, received]⟩⟩
  · exact .inr ⟨f, main, hm, .inr ⟨.inr ⟨err, hx⟩, by simp [hr, hd, received]⟩⟩

theorem Engine.step_finalize_eq_some {e e' : Engine} {i : Nat} {c : AckCall} {ok : Bool}
    (h : e.step K cfg (.finalize i c ok) = some e') :
    ∃ d, e.deliveries[i]? = some d ∧
      e' = { e with redis := { e.redis with processing := ((d.acker.call c).run ok d.acker e.redis.processing).2.2 },
                    deliveries := e.deliveries.set i
                      { d with acker := ((d.acker.call c).run ok d.acker e.redis.processing).2.1 } } := by
  simp only [Engine.step] at h
  split at h
  · cases h
  · rename_i d hd
    exact ⟨d, hd, (Option.some.inj h).symm⟩

theorem Engine.step_reap_eq_some {e e' : Engine} {i rand : Nat} {ok : Bool}
    (h : e.step K cfg (.reap i rand ok) = some e') :
    ∃ pc, e.reapers[i]? = some pc ∧
      let o := pc.step cfg.maxReceives (K.text (e.clock - cfg.ackDeadline) rand) (K.text e.clock rand) ok e.redis
      e' = { e with redis := o.2, reapers := e.reapers.set i o.1 } := by
  simp only [Engine.step] at h
  split at h
  · cases h
  · rename_i pc hpc
    exact ⟨pc, hpc, (Option.some.inj h).symm⟩

/-- The clock never goes back. -/
theorem Engine.clock_le_step {e e' : Engine} {a : Action} (h : e.step K cfg a = some e') : e.clock ≤ e'.clock := by
  cases a with
  | tick => cases h; exact Nat.le_succ _
  | sendRaw => cases h; exact le_rfl
  | receive =>
    rcases Engine.step_receive_cases K cfg h with rfl | ⟨_, _, _, ⟨_, _, rfl⟩ | ⟨_, rfl⟩⟩ <;> exact le_rfl
  | finalize => obtain ⟨_, _, rfl⟩ := Engine.step_finalize_eq_some K cfg h; exact le_rfl
  | reap => obtain ⟨_, _, rfl⟩ := Engine.step_reap_eq_some K cfg h; exact le_rfl

/-- From the initial engine the clock stays at or past the ack deadline, so the time
`now - ack_deadline` of a validity limit is never cut off at 0. -/
theorem Engine.ackDeadline_le_clock (n : Nat) (acts : List Action) (e : Engine)
    (h : (Engine.init cfg n).exec K cfg acts = some e) : cfg.ackDeadline ≤ e.clock :=
  Engine.exec_induction K cfg (fun (_ : Unit) e => cfg.ackDeadline ≤ e.clock) (fun _ _ => ()) (fun _ => True)
    (fun _ _ _ _ _ hD h => hD.trans (Engine.clock_le_step K cfg h)) acts () _ e (fun _ _ => trivial) le_rfl h

end

/-- A reaper step changes the lists only by pushing, at the tail of the main list, the frame it
re-encodes from the head of its batch, or by the `LREM` of the key it is removing. -/
theorem ReaperPc.step_redis (m : Nat) (limit newId : Bytes) (ok : Bool) (pc : ReaperPc) (r : Redis) :
    (pc.step m limit newId ok r).2 = r ∨
    (∃ lim key keys x, pc = .scanning lim (key :: keys) ∧ internalFromList key = .ok x ∧
      (pc.step m limit newId ok r).2 = { r with main := rpush r.main (internalToListPayload newId x) }) ∨
    ∃ lim key keys, pc = .removing lim key keys ∧ ok = true ∧
      (pc.step m limit newId ok r).2 = { r with processing := lrem r.processing key } := by
  rcases pc.step_cases m limit newId ok r with h | ⟨-, -, h⟩ | ⟨_, -, h⟩ | ⟨_, _, _, -, h⟩ |
      ⟨lim, key, keys, x, rfl, -, hx, ⟨h, -⟩ | ⟨h, -⟩⟩ | ⟨lim, key, keys, rfl, hok, h⟩ <;> rw [h]
  -- every step but a push and an `LREM` leaves the lists as they were
  any_goals (left; rfl)
  · exact .inr (.inl ⟨lim, key, keys, x, rfl, hx, rfl⟩)
  · exact .inr (.inr ⟨lim, key, keys, rfl, hok, rfl⟩)

/-- A reaper decides to reclaim `key` only from a batch headed by it that decodes; below the
attempt limit the same step pushed the re-encoded frame to the tail of the main list. -/
theorem ReaperPc.step_eq_removing {m : Nat} {limit newId : Bytes} {ok : Bool} {pc : ReaperPc}
    {r : Redis} {lim key : Bytes} {keys : List Bytes}
    (h : (pc.step m limit newId ok r).1 = .removing lim key keys) :
    pc = .scanning lim (key :: keys) ∧ lexLe key lim = true ∧ ∃ x, internalFromList key = .ok x ∧
      (x.2 < m → (pc.step m limit newId ok r).2 =
        { r with main := rpush r.main (internalToListPayload newId x) }) := by
  rcases pc.step_cases m limit newId ok r with hs | ⟨-, -, hs⟩ | ⟨_, -, hs⟩ | ⟨_, _, _, -, hs⟩ |
      ⟨lim', key', keys', x, rfl, hle, hx, ⟨hs, hge⟩ | ⟨hs, -⟩⟩ | ⟨_, _, _, -, -, hs⟩ <;>
    rw [hs] at h ⊢ <;> cases h
  · exact ⟨rfl, hle, x, hx, fun hlt => absurd hge (Nat.not_le.2 hlt)⟩
  · exact ⟨rfl, hle, x, hx, fun _ => rfl⟩

/-- A reaper step only ever narrows its batch keys, except the `LRANGE` that takes the batch. -/
theorem ReaperPc.step_keys (m : Nat) (limit newId : Bytes) (ok : Bool) (pc : ReaperPc) (r : Redis) :
    (pc.step m limit newId ok r).1.keys ⊆ pc.keys ∨
      (∃ lim, pc = .peeked lim) ∧ (pc.step m limit newId ok r).1.keys ⊆ lrange r.processing 0 batchSize := by
  rcases pc.step_cases m limit newId ok r with h | ⟨-, -, h⟩ | ⟨lim, rfl, h⟩ | ⟨_, key, _, rfl, h⟩ |
      ⟨_, _, _, _, rfl, -, -, ⟨h, -⟩ | ⟨h, -⟩⟩ | ⟨_, key, _, rfl, -, h⟩ <;> rw [h]
  · exact .inl (List.nil_subset _)
  · exact .inl (List.nil_subset _)
  · exact .inr ⟨⟨lim, rfl⟩, List.Subset.refl _⟩
  · exact .inl (List.subset_cons_self key _)
  · exact .inl (List.Subset.refl _)
  · exact .inl (List.Subset.refl _)
  · exact .inl (List.subset_cons_self key _)

section
variable (K : KsuidMs) (cfg : Config)

/-- After a reaper step every batch key was already a batch key, or is in the processing list
when the step is the batch `LRANGE`. -/
theorem Engine.step_reap_keys {e e' : Engine} {i rand : Nat} {ok : Bool}
    (h : e.step K cfg (.reap i rand ok) = some e') :
    ∀ pc' ∈ e'.reapers, ∀ k ∈ pc'.keys, (∃ pc ∈ e.reapers, k ∈ pc.keys) ∨ k ∈ e.redis.processing := by
  obtain ⟨pc, hpc, rfl⟩ := Engine.step_reap_eq_some K cfg h
  intro pc' hpc' k hk
  rcases List.mem_or_eq_of_mem_set hpc' with hpc' | rfl
  · exact .inl ⟨pc', hpc', hk⟩
  rcases pc.step_keys cfg.maxReceives (K.text (e.clock - cfg.ackDeadline) rand) (K.text e.clock rand) ok
    e.redis with hsub | ⟨-, hsub⟩
  · exact .inl ⟨pc, List.getElem?_mem hpc, hsub hk⟩
  · exact .inr (List.drop_subset _ _ (List.take_subset _ _ (hsub hk)))

end

end Omniqueue

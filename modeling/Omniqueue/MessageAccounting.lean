import Omniqueue.SingleReaper

/-!
# No message is lost, none is invented

With any number of engine instances, consumers and ackers, in any interleaving and whatever
fails, an entry carrying a payload leaves the two lists only by an `ack` of one of its deliveries,
by a `nack` at the attempt limit, or by a reaper that finds it at the limit, as long as every
written frame is new. So while no in-flight frame of `p` has reached `max_receives` and no delivery
of `p` is acked, the count of entries of `p` is at least its sends, plus one for each reaper that
has pushed back a frame of `p` and has not yet removed the key it reclaimed: that push is paid back
by the reaper's own `LREM`.

Conversely every entry, batch key and delivery carries a payload that `send_raw` sent: the reaper
pushes back only what it read from the processing list. And every in-flight entry is the frame of
its own delivery, except at most one frame for each receive whose reply was lost.
-/

namespace Omniqueue

/-- The reaper has decided to reclaim `key`, a frame of `p` that the processing list `l` still
holds. -/
def ReaperPc.reclaiming (p : Bytes) (l : List Bytes) : ReaperPc → Bool
  | .removing _ key _ => decide (payloadOf key = some p ∧ key ∈ l)
  | _ => false

/-- Every in-flight frame of `p` reads fewer receives than `max_receives`. -/
def Engine.BelowLimit (maxReceives : Nat) (p : Bytes) (e : Engine) : Prop :=
  ∀ f ∈ e.redis.processing, payloadOf f = some p → belowMaxReceives maxReceives f = true

instance (maxReceives : Nat) (p : Bytes) (e : Engine) : Decidable (e.BelowLimit maxReceives p) := by
  unfold Engine.BelowLimit; infer_instance

/-- The action is an `ack` of a delivery of `p`. -/
def Engine.acks (e : Engine) (p : Bytes) : Action → Bool
  | .finalize j .ack _ => e.deliveries[j]?.any (·.payload == p)
  | _ => false

theorem Engine.payload_ne_of_acks {e : Engine} {p : Bytes} {j : Nat} {c : AckCall} {ok : Bool}
    (h : e.acks p (.finalize j c ok) = false) {d : Delivery} (hc : c = .ack) (hd : e.deliveries[j]? = some d) :
    d.payload ≠ p := by
  subst hc
  simpa [Engine.acks, hd] using h

/-- Every frame the step writes is new, it acks no delivery of `p`, and before the step no in-flight
frame of `p` has reached the attempt limit. -/
def Engine.KeepsUnacked (maxReceives : Nat) (p : Bytes) (e : Engine) (a : Action) (e' : Engine) : Prop :=
  e.WritesFresh e' ∧ e.acks p a = false ∧ e.BelowLimit maxReceives p

instance (maxReceives : Nat) (p : Bytes) (e : Engine) (a : Action) (e' : Engine) :
    Decidable (e.KeepsUnacked maxReceives p a e') := by
  unfold Engine.KeepsUnacked; infer_instance

/-- Replacing the entry `a` at `i` by `b`, counted with a predicate `q'` that implies `q`. -/
theorem countP_set_le {α : Type} {q q' : α → Bool} (hq : ∀ x, q' x = true → q x = true) {a b : α} :
    ∀ {l : List α} {i : Nat}, l[i]? = some a →
      (l.set i b).countP q' + (if q a then 1 else 0) ≤ l.countP q + (if q' b then 1 else 0)
  | x :: l, 0, ha => by
    obtain rfl : x = a := by simpa using ha
    have := List.countP_mono_left (l := l) fun y _ => hq y
    simp only [List.set_cons_zero, List.countP_cons]
    split_ifs <;> omega
  | x :: l, i + 1, ha => by
    have := @countP_set_le α q q' hq a b l i (by simpa using ha)
    have := hq x
    simp only [List.set_cons_succ, List.countP_cons]
    split_ifs at * <;> simp_all <;> omega

section
variable (K : KsuidMs) (cfg : Config) (p : Bytes)

/-- What the lists, ackers and reapers keep in every run that writes only new frames, `sent` being
the payloads sent so far. -/
structure NoLossInv (sent : List Bytes) (e : Engine) : Prop where
  decodes : ∀ d ∈ e.deliveries, internalFromList d.acker.oldPayload = .ok (d.payload, d.acker.numReceives) ∧
    d.acker.maxReceives = cfg.maxReceives
  nodup : (e.redis.main ++ e.redis.processing).Nodup
  keys : ∀ pc ∈ e.reapers, ∀ k ∈ pc.keys,
    k ∉ e.redis.main ∧ (payloadOf k = some p → belowMaxReceives cfg.maxReceives k = true)
  count : sent.count p + e.reapers.countP (ReaperPc.reclaiming p e.redis.processing) ≤
    carriers p e.redis.main + carriers p e.redis.processing

theorem noLossInv_init (n : Nat) : NoLossInv cfg p [] (Engine.init cfg n) := by
  refine ⟨by simp [Engine.init], by simp [Engine.init, Redis.empty], fun pc hpc k hk => ?_, ?_⟩
  · simp [(List.mem_replicate.mp hpc).2, ReaperPc.keys] at hk
  · simp [Engine.init, Redis.empty, List.countP_replicate, ReaperPc.reclaiming]

variable {p} {sent : List Bytes} {e e' : Engine}

theorem NoLossInv.sendRaw (hI : NoLossInv cfg p sent e) {q : Bytes} {rand : Nat} {ok : Bool}
    (h : e.step K cfg (.sendRaw q rand ok) = some e') (hfresh : e.WritesFresh e') :
    NoLossInv cfg p (sent ++ (Action.sendRaw q rand ok).sent.toList) e' := by
  cases h
  cases ok
  · simpa [Action.sent] using hI
  obtain ⟨hm, hp, hk⟩ := hfresh.added (.inl rfl)
  refine ⟨hI.decodes, ?_, fun pc hpc k hk' => ?_, ?_⟩
  · simpa [sendRaw_main, hm, hp] using hI.nodup
  · simp only [sendRaw_main, List.mem_cons, not_or]
    exact ⟨⟨fun h => hk pc hpc (h ▸ hk'), (hI.keys pc hpc k hk').1⟩, (hI.keys pc hpc k hk').2⟩
  · have := hI.count
    simp only [sendRaw_main, Action.sent, Option.toList, List.count_append, List.count_cons, List.count_nil,
      beq_iff_eq, carriers_cons, payloadOf_internalToListPayload (K.sep_not_mem _ _), Option.some.injEq]
    split_ifs <;> omega

/-- A receive moves a frame from the main list to the processing list, whatever its reply, and a
delivery it adds holds the frame it decoded. -/
theorem NoLossInv.receive (hI : NoLossInv cfg p sent e) {t : Nat} {reply : Reply}
    (h : e.step K cfg (.receive t reply) = some e') : NoLossInv cfg p sent e' := by
  rcases Engine.step_receive_cases K cfg h with rfl | ⟨f, main, hm, hd⟩
  · exact hI
  have hnd : (main ++ f :: e.redis.processing).Nodup := by simpa [hm] using hI.nodup
  have hkeys : ∀ pc ∈ e.reapers, ∀ k ∈ pc.keys,
      k ∉ main ∧ (payloadOf k = some p → belowMaxReceives cfg.maxReceives k = true) := fun pc hpc k hk =>
    ⟨fun hk' => (hI.keys pc hpc k hk).1 (by simp [hm, hk']), (hI.keys pc hpc k hk).2⟩
  -- the moved frame was in the main list, so no reaper is reclaiming it
  have hc : sent.count p + e.reapers.countP (ReaperPc.reclaiming p (f :: e.redis.processing)) ≤
      carriers p main + carriers p (f :: e.redis.processing) := by
    have hc := hI.count
    rw [List.countP_congr (l := e.reapers) (q := ReaperPc.reclaiming p (f :: e.redis.processing))
      fun pc hpc => ?_] at hc
    · rw [hm, carriers_append, carriers_cons, carriers_nil] at hc
      rw [carriers_cons]
      omega
    · cases pc with
      | removing lim key keys =>
        have hkf : key ≠ f := fun h => (hI.keys _ hpc key (List.mem_cons_self _ _)).1 (by simp [hm, h])
        simp [ReaperPc.reclaiming, hkf]
      | _ => simp [ReaperPc.reclaiming]
  rcases hd with ⟨x, hx, rfl⟩ | ⟨-, rfl⟩
  · refine ⟨?_, hnd, hkeys, hc⟩
    simp only [List.mem_append, List.mem_singleton]
    rintro d (hd | rfl)
    exacts [hI.decodes d hd, ⟨hx, rfl⟩]
  · exact ⟨hI.decodes, hnd, hkeys, hc⟩

/-- Removing an entry that does not carry `p` changes no reaper's `reclaiming p`. -/
theorem ReaperPc.reclaiming_erase {v : Bytes} (hv : payloadOf v ≠ some p) (l : List Bytes) :
    ReaperPc.reclaiming p (l.erase v) = ReaperPc.reclaiming p l := by
  funext pc
  cases pc with
  | removing lim key keys =>
    by_cases hk : payloadOf key = some p
    · have hkv : key ≠ v := fun h => hv (h ▸ hk)
      simp [ReaperPc.reclaiming, hk, List.mem_erase_of_ne hkv]
    · simp [ReaperPc.reclaiming, hk]
  | _ => rfl

theorem ReaperPc.reclaiming_mono {l l' : List Bytes} (h : l' ⊆ l) {pc : ReaperPc}
    (hq : pc.reclaiming p l' = true) : pc.reclaiming p l = true := by
  cases pc <;> simp_all [ReaperPc.reclaiming]
  exact h hq.2

/-- An ack removes a frame of another payload, and a nack removes only a frame at the limit, which
no in-flight frame of `p` has reached. -/
theorem NoLossInv.finalize (hI : NoLossInv cfg p sent e) (hB : e.BelowLimit cfg.maxReceives p) {j : Nat}
    {c : AckCall} {ok : Bool} (h : e.step K cfg (.finalize j c ok) = some e')
    (hack : ∀ d, c = .ack → e.deliveries[j]? = some d → d.payload ≠ p) : NoLossInv cfg p sent e' := by
  obtain ⟨d, hd, rfl⟩ := Engine.step_finalize_eq_some K cfg h
  obtain ⟨hdec, hmax⟩ := hI.decodes d (List.getElem?_mem hd)
  have hl : ((d.acker.call c).run ok d.acker e.redis.processing).2.2 = e.redis.processing ∨
      payloadOf d.acker.oldPayload ≠ some p ∧
        ((d.acker.call c).run ok d.acker e.redis.processing).2.2 = e.redis.processing.erase d.acker.oldPayload := by
    by_cases hl : ((d.acker.call c).run ok d.acker e.redis.processing).2.2 = e.redis.processing
    · exact .inl hl
    obtain ⟨-, -, hc, herase⟩ := call_erases d.acker c ok e.redis.processing hl
    refine .inr ⟨fun hp => ?_, herase⟩
    have hp' : d.payload = p := by simpa [payloadOf_of_ok hdec] using hp
    rcases hc with hc | hc
    · exact hack d hc hd hp'
    · have hin : d.acker.oldPayload ∈ e.redis.processing :=
        by_contra fun hn => hl (herase.trans (List.erase_of_not_mem hn))
      have hb := hB _ hin hp
      rw [belowMaxReceives_of_ok hdec, decide_eq_true_eq] at hb
      omega
  refine ⟨fun d' hd' => ?_, ?_, hI.keys, ?_⟩
  · rcases List.mem_or_eq_of_mem_set hd' with hd' | rfl
    · exact hI.decodes d' hd'
    · rcases call_acker d.acker c ok e.redis.processing with ha | ha <;> rw [ha] <;> exact ⟨hdec, hmax⟩
  · show (e.redis.main ++ ((d.acker.call c).run ok d.acker e.redis.processing).2.2).Nodup
    rcases hl with hl | ⟨-, hl⟩ <;> rw [hl]
    exacts [hI.nodup, hI.nodup.sublist ((List.erase_sublist _ _).append_left _)]
  · show sent.count p + e.reapers.countP (ReaperPc.reclaiming p ((d.acker.call c).run ok d.acker e.redis.processing).2.2) ≤
      carriers p e.redis.main + carriers p ((d.acker.call c).run ok d.acker e.redis.processing).2.2
    rcases hl with hl | ⟨hne, hl⟩ <;> rw [hl]
    · exact hI.count
    · have := carriers_erase p d.acker.oldPayload e.redis.processing
      rw [if_neg fun h => hne h.2] at this
      simp only [ReaperPc.reclaiming_erase hne]
      have := hI.count
      omega

/-- A reaper step that leaves the lists as they were and to a state that reclaims nothing, with its
batch taken from its old batch or from the processing list. -/
theorem NoLossInv.quiet (hI : NoLossInv cfg p sent e) (hB : e.BelowLimit cfg.maxReceives p) {i : Nat}
    {pc pc' : ReaperPc} (hpc : e.reapers[i]? = some pc)
    (hkeys : ∀ k ∈ pc'.keys, k ∈ pc.keys ∨ k ∈ e.redis.processing)
    (hq : pc'.reclaiming p e.redis.processing = false) :
    NoLossInv cfg p sent { e with reapers := e.reapers.set i pc' } := by
  refine ⟨hI.decodes, hI.nodup, fun pc'' hpc'' k hk => ?_, ?_⟩
  · rcases List.mem_or_eq_of_mem_set hpc'' with hpc'' | rfl
    · exact hI.keys pc'' hpc'' k hk
    rcases hkeys k hk with hk | hk
    · exact hI.keys pc (List.getElem?_mem hpc) k hk
    · exact ⟨fun hk' => List.disjoint_of_nodup_append hI.nodup hk' hk, hB k hk⟩
  · have := @countP_set_le _ (ReaperPc.reclaiming p e.redis.processing) (ReaperPc.reclaiming p e.redis.processing)
      (fun _ h => h) pc pc' _ _ hpc
    have := hI.count
    simp only [hq, Bool.false_eq_true, if_false, Nat.add_zero] at *
    omega

/-- The reaper pushes back the frame `v` it made from the head `key` of its batch and goes on to
remove `key`: the push pays for the removal ahead. -/
theorem NoLossInv.push (hI : NoLossInv cfg p sent e) {i : Nat} {lim key : Bytes} {keys : List Bytes}
    (hpc : e.reapers[i]? = some (.scanning lim (key :: keys))) {v : Bytes} (hv : payloadOf v = payloadOf key)
    (hmain : v ∉ e.redis.main) (hproc : v ∉ e.redis.processing) (hkeys : ∀ pc ∈ e.reapers, v ∉ pc.keys) :
    NoLossInv cfg p sent { e with redis := { e.redis with main := rpush e.redis.main v },
                                  reapers := e.reapers.set i (.removing lim key keys) } := by
  refine ⟨hI.decodes, ?_, fun pc hpc' k hk => ?_, ?_⟩
  · show (e.redis.main ++ [v] ++ e.redis.processing).Nodup
    rw [List.append_assoc, List.singleton_append, List.nodup_middle]
    exact List.nodup_cons.2 ⟨by simp [hmain, hproc], hI.nodup⟩
  · obtain ⟨pc, hpc, hk⟩ : ∃ pc ∈ e.reapers, k ∈ pc.keys := by
      rcases List.mem_or_eq_of_mem_set hpc' with hpc' | rfl
      exacts [⟨pc, hpc', hk⟩, ⟨_, List.getElem?_mem hpc, hk⟩]
    simp only [rpush, List.mem_append, List.mem_singleton, not_or]
    exact ⟨⟨(hI.keys pc hpc k hk).1, fun h => hkeys pc hpc (h ▸ hk)⟩, (hI.keys pc hpc k hk).2⟩
  · have := @countP_set_le _ (ReaperPc.reclaiming p e.redis.processing) (ReaperPc.reclaiming p e.redis.processing)
      (fun _ h => h) (.scanning lim (key :: keys)) (.removing lim key keys) _ _ hpc
    have := hI.count
    show _ + (e.reapers.set i _).countP _ ≤ carriers p (e.redis.main ++ [v]) + _
    simp only [ReaperPc.reclaiming, Bool.false_eq_true, if_false, Nat.add_zero, decide_eq_true_eq,
      carriers_append, carriers_cons, carriers_nil, hv] at *
    split_ifs at * <;> simp_all <;> omega

/-- The reaper's `LREM` of the key it reclaimed: if the key was still there, the entry it removes
is the one its push paid for. -/
theorem NoLossInv.lrem (hI : NoLossInv cfg p sent e) {i : Nat} {lim key : Bytes} {keys : List Bytes}
    (hpc : e.reapers[i]? = some (.removing lim key keys)) :
    NoLossInv cfg p sent { e with redis := { e.redis with processing := lrem e.redis.processing key },
                                  reapers := e.reapers.set i (.scanning lim keys) } := by
  refine ⟨hI.decodes, hI.nodup.sublist ((List.erase_sublist _ _).append_left _), fun pc hpc' k hk => ?_, ?_⟩
  · rcases List.mem_or_eq_of_mem_set hpc' with hpc' | rfl
    · exact hI.keys pc hpc' k hk
    · exact hI.keys _ (List.getElem?_mem hpc) k (List.mem_cons_of_mem _ hk)
  · have h₁ := @countP_set_le _ (ReaperPc.reclaiming p e.redis.processing)
      (ReaperPc.reclaiming p (e.redis.processing.erase key))
      (fun _ => ReaperPc.reclaiming_mono (List.erase_subset _ _)) (.removing lim key keys) (.scanning lim keys) _ _ hpc
    have h₂ := carriers_erase p key e.redis.processing
    have := hI.count
    show _ + (e.reapers.set i _).countP (ReaperPc.reclaiming p (e.redis.processing.erase key)) ≤
      carriers p e.redis.main + carriers p (e.redis.processing.erase key)
    simp only [ReaperPc.reclaiming, Bool.false_eq_true, if_false, Nat.add_zero, decide_eq_true_eq] at h₁
    by_cases hk : payloadOf key = some p ∧ key ∈ e.redis.processing
    · rw [if_pos hk] at h₁; rw [if_pos hk.symm] at h₂; omega
    · rw [if_neg hk] at h₁; rw [if_neg (mt And.symm hk)] at h₂; omega

theorem NoLossInv.reap (hI : NoLossInv cfg p sent e) (hB : e.BelowLimit cfg.maxReceives p) {i rand : Nat}
    {ok : Bool} (h : e.step K cfg (.reap i rand ok) = some e') (hfresh : e.WritesFresh e') :
    NoLossInv cfg p sent e' := by
  obtain ⟨pc, hpc, rfl⟩ := Engine.step_reap_eq_some K cfg h
  rcases pc.step_cases cfg.maxReceives (K.text (e.clock - cfg.ackDeadline) rand) (K.text e.clock rand) ok e.redis
    with hs | ⟨rfl, -, hs⟩ | ⟨lim, rfl, hs⟩ | ⟨lim, key, keys, rfl, hs⟩ |
      ⟨lim, key, keys, x, rfl, -, hx, ⟨hs, hge⟩ | ⟨hs, -⟩⟩ | ⟨lim, key, keys, rfl, -, hs⟩ <;> rw [hs] at hfresh ⊢
  · exact hI.quiet cfg hB hpc (by simp [ReaperPc.keys]) rfl
  · exact hI.quiet cfg hB hpc (by simp [ReaperPc.keys]) rfl
  · exact hI.quiet cfg hB hpc (fun k hk => .inr (List.drop_subset _ _ (List.take_subset _ _ hk))) rfl
  · exact hI.quiet cfg hB hpc (fun k hk => .inl (List.mem_cons_of_mem _ hk)) rfl
  -- a key of `p` reads below the limit, so a key the reaper drops carries another payload
  · have hne : payloadOf key ≠ some p := fun hk => by
      have hb := (hI.keys _ (List.getElem?_mem hpc) key (List.mem_cons_self _ _)).2 hk
      rw [belowMaxReceives_of_ok hx, decide_eq_true_eq] at hb
      omega
    exact hI.quiet cfg hB hpc (fun k hk => .inl hk) (by simp [ReaperPc.reclaiming, hne])
  · obtain ⟨hmain, hproc, hkeys⟩ := hfresh.added (.inr rfl)
    refine hI.push cfg hpc ?_ hmain hproc hkeys
    rw [payloadOf_internalToListPayload (K.sep_not_mem _ _), payloadOf_of_ok hx]
  · exact hI.lrem cfg hpc

/-- Every step that writes only new frames, acks no delivery of `p` and starts with every in-flight
frame of `p` below the limit keeps `NoLossInv`, adding what it sends. -/
theorem NoLossInv.step (hI : NoLossInv cfg p sent e) {a : Action} (h : e.step K cfg a = some e')
    (hG : e.KeepsUnacked cfg.maxReceives p a e') : NoLossInv cfg p (sent ++ a.sent.toList) e' := by
  cases a with
  | tick =>
    cases h
    simpa [Action.sent] using (⟨hI.1, hI.2, hI.3, hI.4⟩ : NoLossInv cfg p sent { e with clock := e.clock + 1 })
  | sendRaw => exact hI.sendRaw K cfg h hG.1
  | receive => simpa [Action.sent] using hI.receive K cfg h
  | finalize j c ok =>
    simpa [Action.sent] using hI.finalize K cfg hG.2.2 h fun _ hc hd => Engine.payload_ne_of_acks hG.2.1 hc hd
  | reap => simpa [Action.sent] using hI.reap K cfg hG.2.2 h hG.1

/-- At least once, below the attempt limit: from empty lists, with any number of engine instances,
in every run in which every written frame is new, no acker of a delivery of `p` acks, and no
in-flight frame of `p` has reached `max_receives` before a step, whatever fails and however sends,
receives, nacks and reaper steps interleave, the two lists hold at least as many entries carrying
`p` as `send_raw` sent `p`. -/
theorem unacked_message_never_lost (n : Nat) (acts : List Action) (e : Engine)
    (h : Engine.Run K cfg (Engine.KeepsUnacked cfg.maxReceives p) (Engine.init cfg n) acts e) :
    (sentPayloads acts).count p ≤ carriers p e.redis.main + carriers p e.redis.processing := by
  have hI := h.induction K cfg (NoLossInv cfg p) (fun s a => s ++ a.sent.toList)
    (fun _ _ _ _ hs hG hI => hI.step K cfg hs hG) (noLossInv_init cfg p n)
  rw [foldl_append_sent, List.nil_append] at hI
  have := hI.count
  omega

end

/-- Two engine instances and a `nack`: both reapers reclaim the nacked message, which ends up
carried twice, never fewer times than it was sent. -/
theorem unacked_message_never_lost_two_reapers :
    let acts : List Action := [.sendRaw payloadP 0 true, .receive 0 .arrived, .finalize 0 .nack true, .tick,
      .tick, .tick, .reap 0 0 true, .reap 0 0 true, .reap 1 1 true, .reap 1 1 true, .reap 0 0 true,
      .reap 0 0 true, .reap 1 1 true, .reap 1 1 true]
    let e : Engine := ⟨⟨[internalToListPayload (tallyKsuid.text 5 0) (payloadP, 1),
        internalToListPayload (tallyKsuid.text 5 1) (payloadP, 1)], []⟩, 5,
      [⟨payloadP, ⟨tallyFrame 2 payloadP, true, 5, 1⟩⟩],
      [.scanning (tallyKsuid.text 3 0) [], .scanning (tallyKsuid.text 3 1) []]⟩
    Engine.Run tallyKsuid ⟨2, 5⟩ (Engine.KeepsUnacked 5 payloadP) (Engine.init ⟨2, 5⟩ 2) acts e ∧
      (sentPayloads acts).count payloadP ≤ carriers payloadP e.redis.main + carriers payloadP e.redis.processing := by
  intro acts e
  have hrun : Engine.Run tallyKsuid ⟨2, 5⟩ (Engine.KeepsUnacked 5 payloadP) (Engine.init ⟨2, 5⟩ 2) acts e := by
    repeat (first | exact .nil _ | refine .cons rfl (by decide) ?_)
  exact ⟨hrun, unacked_message_never_lost tallyKsuid ⟨2, 5⟩ 2 acts e hrun⟩

/-! ## No message is invented -/

/-- The frame decodes to a payload in `sent`. -/
def SentFrame (sent : List Bytes) (f : Bytes) : Prop := ∃ x, internalFromList f = .ok x ∧ x.1 ∈ sent

/-- Every entry of the lists and of a reaper's batch, and every delivery, carries a payload in
`sent`. -/
structure FromSent (sent : List Bytes) (e : Engine) : Prop where
  main : ∀ f ∈ e.redis.main, SentFrame sent f
  processing : ∀ f ∈ e.redis.processing, SentFrame sent f
  keys : ∀ pc ∈ e.reapers, ∀ k ∈ pc.keys, SentFrame sent k
  deliveries : ∀ d ∈ e.deliveries, d.payload ∈ sent

theorem fromSent_init (cfg : Config) (n : Nat) : FromSent [] (Engine.init cfg n) :=
  ⟨by simp [Engine.init, Redis.empty], by simp [Engine.init, Redis.empty],
    fun pc hpc => by simp [(List.mem_replicate.mp hpc).2, ReaperPc.keys], by simp [Engine.init]⟩

section
variable (K : KsuidMs) (cfg : Config) {sent : List Bytes} {e e' : Engine}

theorem FromSent.mono (hI : FromSent sent e) (l : List Bytes) : FromSent (sent ++ l) e :=
  have h : ∀ f, SentFrame sent f → SentFrame (sent ++ l) f := fun _ ⟨x, hx, hs⟩ => ⟨x, hx, by simp [hs]⟩
  ⟨fun f hf => h f (hI.main f hf), fun f hf => h f (hI.processing f hf),
    fun pc hpc k hk => h k (hI.keys pc hpc k hk), fun d hd => by simp [hI.deliveries d hd]⟩

theorem FromSent.receive (hI : FromSent sent e) {t : Nat} {reply : Reply}
    (h : e.step K cfg (.receive t reply) = some e') : FromSent sent e' := by
  rcases Engine.step_receive_cases K cfg h with rfl | ⟨f, main, hm, hd⟩
  · exact hI
  have hf : SentFrame sent f := hI.main f (by simp [hm])
  have hmain : ∀ f' ∈ main, SentFrame sent f' := fun f' hf' => hI.main f' (by simp [hm, hf'])
  have hproc : ∀ f' ∈ f :: e.redis.processing, SentFrame sent f' := List.forall_mem_cons.2 ⟨hf, hI.processing⟩
  rcases hd with ⟨x, hx, rfl⟩ | ⟨-, rfl⟩
  · obtain ⟨x', hx', hs⟩ := hf
    cases hx.symm.trans hx'
    refine ⟨hmain, hproc, hI.keys, ?_⟩
    simp only [List.mem_append, List.mem_singleton]
    rintro d (hd | rfl)
    exacts [hI.deliveries d hd, hs]
  · exact ⟨hmain, hproc, hI.keys, hI.deliveries⟩

/-- The reaper pushes back only frames made from its batch keys, which it read from the processing
list. -/
theorem FromSent.reap (hI : FromSent sent e) {i rand : Nat} {ok : Bool}
    (h : e.step K cfg (.reap i rand ok) = some e') : FromSent sent e' := by
  have hnew := Engine.step_reap_keys K cfg h
  obtain ⟨pc, hpc, rfl⟩ := Engine.step_reap_eq_some K cfg h
  have hkeys := hI.keys pc (List.getElem?_mem hpc)
  refine ⟨?_, ?_, fun pc' hpc' k hk => ?_, hI.deliveries⟩
  · rcases pc.step_redis cfg.maxReceives (K.text (e.clock - cfg.ackDeadline) rand) (K.text e.clock rand) ok
      e.redis with hr | ⟨lim, key, keys, x, rfl, hx, hr⟩ | ⟨_, _, _, _, _, hr⟩ <;> rw [hr]
    · exact hI.main
    · obtain ⟨x', hx', hs⟩ := hkeys key (List.mem_cons_self _ _)
      rw [hx, Except.ok.injEq] at hx'
      subst hx'
      simp only [rpush, List.mem_append, List.mem_singleton]
      rintro f (hf | rfl)
      exacts [hI.main f hf, ⟨_, internalFromList_internalToListPayload (K.sep_not_mem _ _) _, hs⟩]
    · exact hI.main
  · rcases pc.step_redis cfg.maxReceives (K.text (e.clock - cfg.ackDeadline) rand) (K.text e.clock rand) ok
      e.redis with hr | ⟨_, _, _, _, _, _, hr⟩ | ⟨_, key, _, _, _, hr⟩ <;> rw [hr]
    · exact hI.processing
    · exact hI.processing
    · exact fun f hf => hI.processing f (List.erase_subset key _ hf)
  · exact (hnew pc' hpc' k hk).elim (fun ⟨pc, hpc, hk⟩ => hI.keys pc hpc k hk) (hI.processing k)

/-- Every step keeps `FromSent`, adding what it sends. -/
theorem FromSent.step (hI : FromSent sent e) {a : Action} (h : e.step K cfg a = some e') :
    FromSent (sent ++ a.sent.toList) e' := by
  cases a with
  | tick =>
    cases h
    have hI' := hI.mono (Action.sent .tick).toList
    exact ⟨hI'.1, hI'.2, hI'.3, hI'.4⟩
  | sendRaw p rand ok =>
    cases h
    cases ok
    · exact hI.mono _
    have hI' := hI.mono [p]
    refine ⟨?_, hI'.processing, hI'.keys, hI'.deliveries⟩
    simp only [sendRaw_main, List.mem_cons, forall_eq_or_imp]
    exact ⟨⟨_, internalFromList_internalToListPayload (K.sep_not_mem _ _) (p, 0), by simp [Action.sent]⟩, hI'.main⟩
  | receive => exact (hI.receive K cfg h).mono _
  | finalize j c ok =>
    obtain ⟨d, hd, rfl⟩ := Engine.step_finalize_eq_some K cfg h
    have hI' := hI.mono (Action.sent (.finalize j c ok)).toList
    refine ⟨hI'.main, fun f hf => hI'.processing f ?_, hI'.keys, fun d' hd' => ?_⟩
    · rcases call_processing d.acker c ok e.redis.processing with hl | hl <;> rw [hl] at hf
      exacts [hf, List.erase_subset _ _ hf]
    · rcases List.mem_or_eq_of_mem_set hd' with hd' | rfl
      exacts [hI'.deliveries d' hd', hI'.deliveries d (List.getElem?_mem hd)]
  | reap => exact (hI.reap K cfg h).mono _

/-- No message is invented: from empty lists, in every run with any number of engine instances and
whatever fails, every delivery's payload, and the payload of every entry of the two lists, is one
that `send_raw` sent. -/
theorem delivered_payloads_were_sent (n : Nat) (acts : List Action) (e : Engine)
    (h : (Engine.init cfg n).exec K cfg acts = some e) :
    (∀ d ∈ e.deliveries, d.payload ∈ sentPayloads acts) ∧
    ∀ f ∈ e.redis.main ++ e.redis.processing, ∃ x, internalFromList f = .ok x ∧ x.1 ∈ sentPayloads acts := by
  have hI := Engine.exec_induction K cfg FromSent (fun s a => s ++ a.sent.toList) (fun _ => True)
    (fun _ _ _ _ _ hI h => hI.step K cfg h) acts [] _ e (fun _ _ => trivial) (fromSent_init cfg n) h
  rw [foldl_append_sent, List.nil_append] at hI
  refine ⟨hI.deliveries, fun f hf => ?_⟩
  rcases List.mem_append.mp hf with hf | hf
  exacts [hI.main f hf, hI.processing f hf]

end

/-- Two engine instances reclaim the same message and a consumer receives one of the two copies:
both deliveries and both entries carry the one payload sent. -/
theorem delivered_payloads_were_sent_two_reapers :
    let acts : List Action := [.sendRaw payloadP 0 true, .receive 0 .arrived, .tick, .tick, .tick,
      .reap 0 0 true, .reap 0 0 true, .reap 1 1 true, .reap 1 1 true, .reap 0 0 true, .reap 0 0 true,
      .reap 1 1 true, .reap 1 1 true, .receive 0 .arrived]
    let e : Engine := ⟨⟨[internalToListPayload (tallyKsuid.text 5 0) (payloadP, 1)],
        [internalToListPayload (tallyKsuid.text 5 1) (payloadP, 1)]⟩, 5,
      [⟨payloadP, ⟨tallyFrame 2 payloadP, false, 5, 1⟩⟩,
        ⟨payloadP, ⟨internalToListPayload (tallyKsuid.text 5 1) (payloadP, 1), false, 5, 2⟩⟩],
      [.scanning (tallyKsuid.text 3 0) [], .scanning (tallyKsuid.text 3 1) []]⟩
    (Engine.init ⟨2, 5⟩ 2).exec tallyKsuid ⟨2, 5⟩ acts = some e ∧
      ((∀ d ∈ e.deliveries, d.payload ∈ sentPayloads acts) ∧
        ∀ f ∈ e.redis.main ++ e.redis.processing, ∃ x, internalFromList f = .ok x ∧ x.1 ∈ sentPayloads acts) := by
  intro acts e
  have h : (Engine.init ⟨2, 5⟩ 2).exec tallyKsuid ⟨2, 5⟩ acts = some e := by decide
  exact ⟨h, delivered_payloads_were_sent tallyKsuid ⟨2, 5⟩ 2 acts e h⟩

/-! ## Every in-flight entry has an acker, or a lost reply -/

/-- The frames the deliveries' ackers hold, one per delivery. -/
def Engine.heldFrames (e : Engine) : List Bytes := e.deliveries.map fun d => d.acker.oldPayload

section
variable (K : KsuidMs) (cfg : Config) {sent : List Bytes} {e e' : Engine}

/-- A receive adds the moved frame and its delivery together, or, when its reply is lost, the
moved frame as one more orphan; an ack or a reaper's `LREM` only removes entries. -/
theorem heldFrames_step (hI : FromSent sent e) {orphans : List Bytes}
    (hH : e.redis.processing.Subperm (e.heldFrames ++ orphans)) {a : Action} (h : e.step K cfg a = some e') :
    ∃ orphans' : List Bytes, orphans'.length ≤ orphans.length + (if a.losesReply then 1 else 0) ∧
      e'.redis.processing.Subperm (e'.heldFrames ++ orphans') := by
  cases a with
  | tick => cases h; exact ⟨orphans, by omega, hH⟩
  | sendRaw p rand ok => cases h; cases ok <;> exact ⟨orphans, by omega, hH⟩
  | receive t reply =>
    rcases Engine.step_receive_cases K cfg h with rfl | ⟨f, main, hm, ⟨x, -, rfl⟩ | ⟨hl, rfl⟩⟩
    · exact ⟨orphans, by omega, hH⟩
    · refine ⟨orphans, by omega, ?_⟩
      simp only [Engine.heldFrames, List.map_append, List.map_singleton, List.append_assoc, List.singleton_append]
      exact ((List.subperm_cons f).2 hH).trans List.perm_middle.symm.subperm
    -- every frame of the main list decodes, so only a lost reply leaves the moved frame orphaned
    · obtain rfl : reply = .lost := hl.resolve_right fun ⟨_, hrej⟩ => by
        obtain ⟨x, hx, -⟩ := hI.main f (by simp [hm])
        cases hrej.symm.trans hx
      refine ⟨f :: orphans, by simp [Action.losesReply], ?_⟩
      exact ((List.subperm_cons f).2 hH).trans List.perm_middle.symm.subperm
  | finalize j c ok =>
    obtain ⟨d, hd, rfl⟩ := Engine.step_finalize_eq_some K cfg h
    have hheld : (e.deliveries.set j { d with acker := ((d.acker.call c).run ok d.acker e.redis.processing).2.1 }).map
        (fun d => d.acker.oldPayload) = e.heldFrames :=
      map_set_of_get_eq hd (by rcases call_acker d.acker c ok e.redis.processing with ha | ha <;> rw [ha])
    refine ⟨orphans, by omega, ?_⟩
    show ((d.acker.call c).run ok d.acker e.redis.processing).2.2.Subperm _
    rw [Engine.heldFrames, hheld]
    rcases call_processing d.acker c ok e.redis.processing with hl | hl <;> rw [hl]
    exacts [hH, (List.erase_sublist _ _).subperm.trans hH]
  | reap i rand ok =>
    obtain ⟨pc, -, rfl⟩ := Engine.step_reap_eq_some K cfg h
    refine ⟨orphans, by omega, ?_⟩
    show List.Subperm _ (e.heldFrames ++ orphans)
    rcases pc.step_redis cfg.maxReceives (K.text (e.clock - cfg.ackDeadline) rand) (K.text e.clock rand) ok
      e.redis with hr | ⟨_, _, _, _, _, _, hr⟩ | ⟨_, key, _, _, _, hr⟩ <;> rw [hr]
    · exact hH
    · exact hH
    · exact (List.erase_sublist key _).subperm.trans hH

/-- Orphans come only from lost replies: from empty lists, in every run with any number of engine
instances and whatever fails, each in-flight entry is the frame of its own delivery's acker, except
at most one frame, which no acker holds, for each receive whose reply was lost. -/
theorem inflight_orphans_at_most_lost_replies (n : Nat) (acts : List Action) (e : Engine)
    (h : (Engine.init cfg n).exec K cfg acts = some e) :
    ∃ orphans : List Bytes, orphans.length ≤ acts.countP Action.losesReply ∧
      e.redis.processing.Subperm (e.deliveries.map (fun d => d.acker.oldPayload) ++ orphans) := by
  have hI := Engine.exec_induction K cfg
    (fun (s : List Bytes × Nat) e => FromSent s.1 e ∧
      ∃ orphans : List Bytes, orphans.length ≤ s.2 ∧ e.redis.processing.Subperm (e.heldFrames ++ orphans))
    (fun s a => (s.1 ++ a.sent.toList, s.2 + if a.losesReply then 1 else 0)) (fun _ => True)
    (fun _ _ _ _ _ ⟨hS, _, hlen, hH⟩ h => by
      obtain ⟨orphans', hlen', hH'⟩ := heldFrames_step K cfg hS hH h
      exact ⟨hS.step K cfg h, orphans', by dsimp only; omega, hH'⟩)
    acts ([], 0) _ e (fun _ _ => trivial) ⟨fromSent_init cfg n, [], le_rfl, by simp [Engine.init, Redis.empty]⟩ h
  rw [foldl_sent_lostReplies, Nat.zero_add] at hI
  exact hI.2

end

/-- A receive that loses its reply leaves the first message in flight with no acker, and the next
receive delivers the second: one orphan, for one lost reply. -/
theorem inflight_orphans_at_most_lost_replies_of_lost :
    let acts : List Action :=
      [.sendRaw payloadP 0 true, .sendRaw payloadQ 1 true, .receive 0 .lost, .receive 0 .arrived]
    let e : Engine := ⟨⟨[], [internalToListPayload (tallyKsuid.text 2 1) (payloadQ, 0), tallyFrame 2 payloadP]⟩, 2,
      [⟨payloadQ, ⟨internalToListPayload (tallyKsuid.text 2 1) (payloadQ, 0), false, 5, 1⟩⟩], [.idle]⟩
    (Engine.init ⟨2, 5⟩ 1).exec tallyKsuid ⟨2, 5⟩ acts = some e ∧
      ∃ orphans : List Bytes, orphans.length ≤ acts.countP Action.losesReply ∧
        e.redis.processing.Subperm (e.deliveries.map (fun d => d.acker.oldPayload) ++ orphans) := by
  intro acts e
  have h : (Engine.init ⟨2, 5⟩ 1).exec tallyKsuid ⟨2, 5⟩ acts = some e := by decide
  exact ⟨h, inflight_orphans_at_most_lost_replies tallyKsuid ⟨2, 5⟩ 1 acts e h⟩

end Omniqueue

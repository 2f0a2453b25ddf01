import Omniqueue.InterleavedEngine

/-!
# Round trip through the main list

While no reaper iteration re-enqueues a frame, the main list is a FIFO of frames: every
`BRPOPLPUSH` moves the oldest frame not yet moved, and a receive returns its payload byte for byte
with the moved frame as the delivery's `old_payload`. A receive whose reply is lost moves a frame
that no delivery holds, so the next receive skips that message: the received payloads form a
prefix of the sent ones only in runs where no reply is lost, and a sublist of them in every run.
Acks, nacks and reaper steps that push nothing only remove entries from the processing list.
-/

namespace Omniqueue

/-- No reaper step adds to the main list: no reaper iteration re-enqueues a frame. -/
def Engine.NoReenqueue (e : Engine) : Action → Engine → Prop
  | .reap .., e' => e'.redis.main = e.redis.main
  | _, _ => True

/-- What such a run keeps, `sent` being the payloads sent so far and `moved` the frames every
`BRPOPLPUSH` moved, in order, whether or not its reply arrived. -/
structure FifoInv (sent moved : List Bytes) (e : Engine) : Prop where
  payloads : moved.filterMap payloadOf ++ e.redis.main.reverse.filterMap payloadOf = sent
  mainFresh : ∀ f ∈ e.redis.main, ∃ p, internalFromList f = .ok (p, 1)
  delivered : (e.deliveries.map (·.acker.oldPayload)).Sublist moved
  processing : e.redis.processing.Sublist moved.reverse
  oldPayload : ∀ d ∈ e.deliveries, internalFromList d.acker.oldPayload = .ok (d.payload, 1)

theorem fifoInv_init (cfg : Config) (n : Nat) : FifoInv [] [] (Engine.init cfg n) :=
  ⟨rfl, by simp [Engine.init, Redis.empty], by simp [Engine.init], List.Sublist.slnil, by simp [Engine.init]⟩

/-- The payloads received are those of the frames the deliveries hold. -/
theorem FifoInv.payloads_delivered {sent moved : List Bytes} {e : Engine} (hI : FifoInv sent moved e) :
    e.deliveries.map (·.payload) = (e.deliveries.map (·.acker.oldPayload)).filterMap payloadOf := by
  rw [List.filterMap_map, ← List.filterMap_eq_map]
  exact List.filterMap_congr fun d hd => (payloadOf_of_ok (hI.oldPayload d hd)).symm

section
variable (K : KsuidMs) (cfg : Config)

theorem fifoInv_sendRaw {sent moved : List Bytes} {e : Engine} (hI : FifoInv sent moved e) (p : Bytes)
    (rand : Nat) (ok : Bool) :
    FifoInv (sent ++ (Action.sendRaw p rand ok).sent.toList) moved
      { e with redis := (sendRaw ok (K.text e.clock rand) p e.redis).2 } := by
  cases ok
  · simpa [Action.sent] using hI
  · have hid := K.sep_not_mem e.clock rand
    refine ⟨?_, ?_, hI.delivered, hI.processing, hI.oldPayload⟩
    · simp [sendRaw_main, Action.sent, hid, ← hI.payloads]
    · simp only [sendRaw_main, List.mem_cons, forall_eq_or_imp]
      exact ⟨⟨p, internalFromList_internalToListPayload hid _⟩, hI.mainFresh⟩

/-- A receive moves the oldest frame of the main list, if any, onto `moved` and the processing
list; it adds a delivery of that frame unless its reply is lost. -/
theorem fifoInv_receive {sent moved : List Bytes} {e e' : Engine} (hI : FifoInv sent moved e) {t : Nat}
    {reply : Reply} (h : e.step K cfg (.receive t reply) = some e') :
    ∃ moved', FifoInv sent moved' e' ∧ moved'.length + e.deliveries.length ≤
      moved.length + e'.deliveries.length + if (Action.receive t reply).losesReply then 1 else 0 := by
  rcases Engine.step_receive_cases K cfg h with rfl | ⟨f, main, hm, hd⟩
  · exact ⟨moved, hI, by omega⟩
  obtain ⟨p, hp⟩ := hI.mainFresh f (by simp [hm])
  have hpay : moved.filterMap payloadOf ++ p :: main.reverse.filterMap payloadOf = sent := by
    simpa [hm, payloadOf_of_ok hp] using hI.payloads
  have hmain : ∀ f' ∈ main, ∃ p, internalFromList f' = .ok (p, 1) := fun f' hf' => hI.mainFresh f' (by simp [hm, hf'])
  rcases hd with ⟨x, hx, rfl⟩ | ⟨hl, rfl⟩
  · cases (Except.ok.inj (hx.symm.trans hp))
    refine ⟨moved ++ [f], ⟨?_, hmain, ?_, ?_, ?_⟩, by simp only [List.length_append, List.length_singleton]; omega⟩
    · simpa [payloadOf_of_ok hp] using hpay
    · simpa [internalToDelivery] using hI.delivered.append (List.Sublist.refl [f])
    · simpa using hI.processing.cons₂ f
    · simp only [List.mem_append, List.mem_singleton]
      rintro d (hd | rfl)
      exacts [hI.oldPayload d hd, hp]
  -- a moved frame decodes, so only a lost reply leaves it without a delivery
  · obtain rfl : reply = .lost := hl.resolve_right fun ⟨_, hx⟩ => by cases hx.symm.trans hp
    refine ⟨moved ++ [f], ⟨?_, hmain, hI.delivered.trans (List.sublist_append_left _ _), ?_, hI.oldPayload⟩,
      by simp [Action.losesReply]; omega⟩
    · simpa [payloadOf_of_ok hp] using hpay
    · simpa using hI.processing.cons₂ f

/-- A call of an acker removes at most its frame and keeps its delivery's payload and frame. -/
theorem fifoInv_finalize {sent moved : List Bytes} {e e' : Engine} (hI : FifoInv sent moved e) {j : Nat}
    {c : AckCall} {ok : Bool} (h : e.step K cfg (.finalize j c ok) = some e') :
    FifoInv sent moved e' ∧ e'.deliveries.length = e.deliveries.length := by
  obtain ⟨d, hd, rfl⟩ := Engine.step_finalize_eq_some K cfg h
  have hold : ((d.acker.call c).run ok d.acker e.redis.processing).2.1.oldPayload = d.acker.oldPayload := by
    rcases call_acker d.acker c ok e.redis.processing with ha | ha <;> rw [ha]
  have hl : ((d.acker.call c).run ok d.acker e.redis.processing).2.2.Sublist e.redis.processing := by
    rcases call_processing d.acker c ok e.redis.processing with hl | hl <;> rw [hl]
    exact List.erase_sublist _ _
  generalize ((d.acker.call c).run ok d.acker e.redis.processing).2.1 = a' at hold ⊢
  have hold' : (e.deliveries.set j ⟨d.payload, a'⟩).map (·.acker.oldPayload) =
      e.deliveries.map (·.acker.oldPayload) :=
    map_set_of_get_eq hd hold
  refine ⟨⟨?_, hI.mainFresh, ?_, hl.trans hI.processing, fun d' hd' => ?_⟩, List.length_set _ _ _⟩
  · simpa only [map_set_of_get_eq hd rfl] using hI.payloads
  · simpa only [hold'] using hI.delivered
  · rcases List.mem_or_eq_of_mem_set hd' with hd' | rfl
    · exact hI.oldPayload d' hd'
    · rw [hold]; exact hI.oldPayload d (List.getElem?_mem hd)

/-- A reaper step that pushes nothing at most removes an entry of the processing list. -/
theorem fifoInv_reap {sent moved : List Bytes} {e e' : Engine} (hI : FifoInv sent moved e) {i rand : Nat}
    {ok : Bool} (h : e.step K cfg (.reap i rand ok) = some e') (hmain : e'.redis.main = e.redis.main) :
    FifoInv sent moved e' ∧ e'.deliveries = e.deliveries := by
  obtain ⟨pc, -, rfl⟩ := Engine.step_reap_eq_some K cfg h
  refine ⟨?_, rfl⟩
  rcases pc.step_redis cfg.maxReceives (K.text (e.clock - cfg.ackDeadline) rand) (K.text e.clock rand) ok
    e.redis with hr | ⟨_, _, _, _, _, _, hr⟩ | ⟨_, key, _, _, _, hr⟩
  · simp only [hr]; exact ⟨hI.1, hI.2, hI.3, hI.4, hI.5⟩
  · simp [hr, rpush] at hmain
  · simp only [hr]
    exact ⟨hI.1, hI.2, hI.3, (List.erase_sublist _ _).trans hI.4, hI.5⟩

/-- One step of a run in which no reaper re-enqueues keeps `FifoInv`, adding what it sends; a frame
moved without a delivery costs a lost reply. -/
theorem fifoInv_step {sent moved : List Bytes} {e e' : Engine} {a : Action} (hI : FifoInv sent moved e)
    (h : e.step K cfg a = some e') (hG : e.NoReenqueue a e') :
    ∃ moved', FifoInv (sent ++ a.sent.toList) moved' e' ∧ moved'.length + e.deliveries.length ≤
      moved.length + e'.deliveries.length + if a.losesReply then 1 else 0 := by
  cases a with
  | tick =>
    cases h
    simp only [Action.sent, Option.toList, List.append_nil]
    exact ⟨moved, ⟨hI.1, hI.2, hI.3, hI.4, hI.5⟩, by omega⟩
  | sendRaw p rand ok => cases h; exact ⟨moved, fifoInv_sendRaw K hI p rand ok, by dsimp only; omega⟩
  | receive => simpa [Action.sent] using fifoInv_receive K cfg hI h
  | finalize =>
    obtain ⟨hI', hlen⟩ := fifoInv_finalize K cfg hI h
    exact ⟨moved, by simpa [Action.sent] using hI', by omega⟩
  | reap =>
    obtain ⟨hI', hd⟩ := fifoInv_reap K cfg hI h hG
    exact ⟨moved, by simpa [Action.sent] using hI', by rw [hd]; omega⟩

/-- FIFO round trip: from empty lists, in every run in which no reaper iteration re-enqueues a
frame, whatever fails and whatever acks, nacks and other reaper steps interleave, the received
payloads are a sublist of the sent ones in send order, and each delivery's `old_payload` is a frame
that decodes to the delivery's payload, read once. When no receive loses its reply, the received
payloads are a prefix of the sent ones and the processing list holds only the frames the receives
moved, newest first. -/
theorem fifo_round_trip (n : Nat) (acts : List Action) (e : Engine)
    (h : Engine.Run K cfg Engine.NoReenqueue (Engine.init cfg n) acts e) :
    (e.deliveries.map (·.payload)).Sublist (sentPayloads acts) ∧
    (acts.any Action.losesReply = false →
      e.deliveries.map (·.payload) <+: sentPayloads acts ∧
      e.redis.processing.Sublist (e.deliveries.map (·.acker.oldPayload)).reverse) ∧
    ∀ d ∈ e.deliveries, internalFromList d.acker.oldPayload = .ok (d.payload, 1) := by
  -- the frames moved outnumber the deliveries by at most the replies lost
  have hP := h.induction K cfg
    (fun (s : List Bytes × Nat) e => ∃ moved, FifoInv s.1 moved e ∧ moved.length ≤ e.deliveries.length + s.2)
    (fun s a => (s.1 ++ a.sent.toList, s.2 + if a.losesReply then 1 else 0))
    (fun _ _ _ _ hs hG ⟨_, hI, hlen⟩ => by
      obtain ⟨moved', hI', hlen'⟩ := fifoInv_step K cfg hI hs hG
      exact ⟨moved', hI', by dsimp only; omega⟩)
    (s := ([], 0)) ⟨[], fifoInv_init cfg n, Nat.zero_le _⟩
  rw [foldl_sent_lostReplies, List.nil_append, Nat.zero_add] at hP
  obtain ⟨moved, hI, hlen⟩ := hP
  have hpre : moved.filterMap payloadOf <+: sentPayloads acts := ⟨_, hI.payloads⟩
  refine ⟨?_, fun hno => ?_, hI.oldPayload⟩
  · rw [hI.payloads_delivered]
    exact (hI.delivered.filterMap _).trans hpre.sublist
  · rw [List.countP_eq_zero.2 (List.any_eq_false.1 hno)] at hlen
    have hmv := hI.delivered.eq_of_length_le (by simpa using hlen)
    rw [hI.payloads_delivered, hmv]
    exact ⟨hpre, hmv ▸ hI.processing⟩

end

/-- Two sends, a receive and a reaper peek that finds nothing overdue: the first payload, which
holds `|` and starts with a digit, comes back. -/
theorem fifo_round_trip_pipe_payload :
    let acts : List Action :=
      [.sendRaw [49, 124, 50] 0 true, .tick, .sendRaw [51] 1 true, .receive 0 .arrived, .reap 0 0 true]
    let e : Engine := ⟨⟨[internalToListPayload (tallyKsuid.text 6 1) ([51], 0)], [tallyFrame 5 [49, 124, 50]]⟩, 6,
      [⟨[49, 124, 50], ⟨tallyFrame 5 [49, 124, 50], false, 5, 1⟩⟩], [.idle]⟩
    Engine.Run tallyKsuid ⟨5, 5⟩ Engine.NoReenqueue (Engine.init ⟨5, 5⟩ 1) acts e ∧
      ((e.deliveries.map (·.payload)).Sublist (sentPayloads acts) ∧
        (acts.any Action.losesReply = false →
          e.deliveries.map (·.payload) <+: sentPayloads acts ∧
          e.redis.processing.Sublist (e.deliveries.map (·.acker.oldPayload)).reverse) ∧
        ∀ d ∈ e.deliveries, internalFromList d.acker.oldPayload = .ok (d.payload, 1)) := by
  intro acts e
  have hrun : Engine.Run tallyKsuid ⟨5, 5⟩ Engine.NoReenqueue (Engine.init ⟨5, 5⟩ 1) acts e := by
    repeat (first | exact .nil _ | refine .cons rfl (by trivial) ?_)
  exact ⟨hrun, fifo_round_trip tallyKsuid ⟨5, 5⟩ 1 acts e hrun⟩

/-- A receive whose reply is lost moves the first message to the processing list with no
delivery, and the next receive returns the second: the received payloads are not a prefix of the
sent ones. -/
theorem lost_reply_skips_message :
    let acts : List Action :=
      [.sendRaw payloadP 0 true, .sendRaw payloadQ 1 true, .receive 0 .lost, .receive 0 .arrived]
    let e : Engine := ⟨⟨[], [internalToListPayload (tallyKsuid.text 5 1) (payloadQ, 0), tallyFrame 5 payloadP]⟩, 5,
      [⟨payloadQ, ⟨internalToListPayload (tallyKsuid.text 5 1) (payloadQ, 0), false, 5, 1⟩⟩], [.idle]⟩
    Engine.Run tallyKsuid ⟨5, 5⟩ Engine.NoReenqueue (Engine.init ⟨5, 5⟩ 1) acts e ∧
      e.deliveries.map (·.payload) = [payloadQ] ∧ sentPayloads acts = [payloadP, payloadQ] ∧
      ¬ e.deliveries.map (·.payload) <+: sentPayloads acts := by
  intro acts e
  refine ⟨?_, rfl, rfl, by decide⟩
  repeat (first | exact .nil _ | refine .cons rfl (by trivial) ?_)

end Omniqueue

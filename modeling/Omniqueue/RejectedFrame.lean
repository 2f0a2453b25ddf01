import Omniqueue.InterleavedEngine

/-!
# A frame that does not decode

`receive_with_timeout` moves the frame at the pop end of the main list with `BRPOPLPUSH` before it
decodes it. When `internal_from_list` rejects the frame, `receive` and `receive_all` return the
error and the frame stays in the processing list with no delivery. No acker holds it, and a
reaper stops its iteration at it without its `LREM`, so no later step of the engine removes it.
-/

namespace Omniqueue

/-- The frame `f` is in the processing list, no acker holds it, and no reaper is about to remove
it. -/
structure Engine.Stranded (f : Bytes) (e : Engine) : Prop where
  processing : f ∈ e.redis.processing
  ackers : ∀ d ∈ e.deliveries, d.acker.oldPayload ≠ f
  reapers : ∀ lim keys, ReaperPc.removing lim f keys ∉ e.reapers

section
variable (K : KsuidMs) (cfg : Config) {f : Bytes} {err : QueueError}

theorem Engine.Stranded.receive {e e' : Engine} (hI : e.Stranded f) (hrej : internalFromList f = .error err)
    {t : Nat} {reply : Reply} (h : e.step K cfg (.receive t reply) = some e') : e'.Stranded f := by
  rcases Engine.step_receive_cases K cfg h with rfl | ⟨f', main, -, ⟨x, hx, rfl⟩ | ⟨-, rfl⟩⟩
  · exact hI
  · refine ⟨List.mem_cons_of_mem _ hI.processing, fun d hd => ?_, hI.reapers⟩
    rcases List.mem_append.1 hd with hd | hd
    · exact hI.ackers d hd
    -- the new delivery holds a frame that decoded
    · rw [List.mem_singleton.1 hd]
      rintro (rfl : f' = f)
      cases hrej.symm.trans hx
  · exact ⟨List.mem_cons_of_mem _ hI.processing, hI.ackers, hI.reapers⟩

theorem Engine.Stranded.finalize {e e' : Engine} (hI : e.Stranded f) {j : Nat} {c : AckCall} {ok : Bool}
    (h : e.step K cfg (.finalize j c ok) = some e') : e'.Stranded f := by
  obtain ⟨d, hd, rfl⟩ := Engine.step_finalize_eq_some K cfg h
  have hne : d.acker.oldPayload ≠ f := hI.ackers d (List.getElem?_mem hd)
  refine ⟨?_, fun d' hd' => ?_, hI.reapers⟩
  · show f ∈ ((d.acker.call c).run ok d.acker e.redis.processing).2.2
    rcases call_processing d.acker c ok e.redis.processing with hl | hl <;> rw [hl]
    exacts [hI.processing, (List.mem_erase_of_ne hne.symm).2 hI.processing]
  · rcases List.mem_or_eq_of_mem_set hd' with hd' | rfl
    · exact hI.ackers d' hd'
    · rcases call_acker d.acker c ok e.redis.processing with ha | ha <;> rw [ha] <;> exact hne

theorem Engine.Stranded.reap {e e' : Engine} (hI : e.Stranded f) (hrej : internalFromList f = .error err)
    {i rand : Nat} {ok : Bool} (h : e.step K cfg (.reap i rand ok) = some e') : e'.Stranded f := by
  obtain ⟨pc, hpc, rfl⟩ := Engine.step_reap_eq_some K cfg h
  refine ⟨?_, hI.ackers, fun lim keys hmem => ?_⟩
  · rcases pc.step_redis cfg.maxReceives (K.text (e.clock - cfg.ackDeadline) rand) (K.text e.clock rand) ok
      e.redis with hr | ⟨_, _, _, _, _, _, hr⟩ | ⟨lim, key, keys, rfl, -, hr⟩ <;> rw [hr]
    · exact hI.processing
    · exact hI.processing
    · refine (List.mem_erase_of_ne fun hk => hI.reapers lim keys ?_).2 hI.processing
      subst hk
      exact List.getElem?_mem hpc
  · rcases List.mem_or_eq_of_mem_set hmem with hmem | heq
    · exact hI.reapers lim keys hmem
    -- a reaper only reaches `removing` for a key that decoded
    · obtain ⟨-, -, x, hx, -⟩ := ReaperPc.step_eq_removing heq.symm
      cases hrej.symm.trans hx

/-- Every step keeps a rejected frame stranded. -/
theorem Engine.Stranded.step {e e' : Engine} {a : Action} (hI : e.Stranded f)
    (hrej : internalFromList f = .error err) (h : e.step K cfg a = some e') : e'.Stranded f := by
  cases a with
  | tick => cases h; exact ⟨hI.1, hI.2, hI.3⟩
  | sendRaw p rand ok => cases h; cases ok <;> exact ⟨hI.1, hI.2, hI.3⟩
  | receive => exact hI.receive K cfg hrej h
  | finalize => exact hI.finalize K cfg h
  | reap => exact hI.reap K cfg hrej h

/-- A frame at the pop end of the main list that `internal_from_list` rejects: `receive` and
`receive_all` return the error with the frame moved to the head of the processing list, and
however the engine goes on after a receive whose reply arrives (sends, receives, acks, nacks, reaper iterations,
failures), the frame stays in the processing list and no acker ever holds it. -/
theorem rejected_frame_stranded (e : Engine) {main : List Bytes} (hm : e.redis.main = main ++ [f])
    (hrej : internalFromList f = .error err) (hd : ∀ d ∈ e.deliveries, d.acker.oldPayload ≠ f)
    (hr : ∀ lim keys, ReaperPc.removing lim f keys ∉ e.reapers) (t n : Nat) (acts : List Action) (e' : Engine)
    (h : e.exec K cfg (.receive t .arrived :: acts) = some e') :
    receive .arrived cfg.maxReceives e.redis = some (.error err, ⟨main, f :: e.redis.processing⟩) ∧
    receiveAll .arrived cfg.maxReceives t n e.redis = some (.error err, ⟨main, f :: e.redis.processing⟩) ∧
    f ∈ e'.redis.processing ∧ ∀ d ∈ e'.deliveries, d.acker.oldPayload ≠ f := by
  have hrecv := receiveWithTimeout_of_rejected t cfg.maxReceives hm hrej
  -- the failed receive leaves `f` stranded
  let e₁ : Engine := { e with redis := ⟨main, f :: e.redis.processing⟩ }
  have h₁ : e.step K cfg (.receive t .arrived) = some e₁ := by simp [e₁, Engine.step, hrecv, received]
  rw [Engine.exec_cons, h₁, Option.some_bind] at h
  have hI := Engine.exec_induction K cfg (fun (_ : Unit) e => e.Stranded f) (fun _ _ => ()) (fun _ => True)
    (fun _ _ _ _ _ hI h => hI.step K cfg hrej h) acts () e₁ e' (fun _ _ => trivial)
    ⟨List.mem_cons_self _ _, hd, hr⟩ h
  exact ⟨by simp [receive, receiveWithTimeout_of_rejected 0 cfg.maxReceives hm hrej, Except.bind],
    by simp [receiveAll, hrecv, Except.map], hI.processing,
    hI.ackers⟩

end

/-- The bare byte `0` at the pop end of an otherwise empty queue: the receive fails, and after a
send, a receive, a whole reaper iteration that reclaims the sent message and an ack, the byte is
still the only entry of the processing list. -/
theorem rejected_frame_stranded_past_reaper :
    let e : Engine := ⟨⟨[[48]], []⟩, 0, [], [.idle]⟩
    let acts : List Action := [.sendRaw payloadP 0 true, .receive 0 .arrived, .tick, .tick, .tick,
      .reap 0 0 true, .reap 0 0 true, .reap 0 0 true, .reap 0 0 true, .reap 0 0 true, .finalize 0 .ack true]
    let e' : Engine := ⟨⟨[internalToListPayload (tallyKsuid.text 3 0) (payloadP, 1)], [[48]]⟩, 3,
      [⟨payloadP, ⟨tallyFrame 0 payloadP, true, 5, 1⟩⟩], [.idle]⟩
    e.exec tallyKsuid ⟨2, 5⟩ (.receive 0 .arrived :: acts) = some e' ∧
      (receive .arrived 5 e.redis = some (.error .malformedFrame, ⟨[], [[48]]⟩) ∧
        receiveAll .arrived 5 0 1 e.redis = some (.error .malformedFrame, ⟨[], [[48]]⟩) ∧
        [48] ∈ e'.redis.processing ∧ ∀ d ∈ e'.deliveries, d.acker.oldPayload ≠ [48]) := by
  intro e acts e'
  have h : e.exec tallyKsuid ⟨2, 5⟩ (.receive 0 .arrived :: acts) = some e' := by decide
  exact ⟨h, rejected_frame_stranded tallyKsuid ⟨2, 5⟩ e (show e.redis.main = [] ++ [[48]] from rfl) rfl
    (by simp [e]) (by simp [e]) 0 1 acts e' h⟩

end Omniqueue

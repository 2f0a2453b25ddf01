import Omniqueue.InterleavedEngine

/-!
# An ack racing a reaper iteration

The reaper decides what to push back from the batch it read with `LRANGE`, not from the list as
it is when it pushes. An ack whose `LREM` lands after that read removes the frame, and the reaper
pushes the message back all the same. An ack that lands before the read leaves nothing for the
iteration to find.
-/

namespace Omniqueue

/-- Only reaper `i`, the ackers and the clock act. -/
def Action.isReaperOrAcker (i : Nat) : Action → Bool
  | .tick | .finalize .. => true
  | .reap j _ _ => j == i
  | _ => false

/-- The ack's `LREM` lands between the reaper's batch `LRANGE` and its push: the ack succeeds and
empties the processing list, yet the reaper pushes the frame back and the next receive delivers
the acknowledged payload a second time. -/
theorem ack_after_snapshot_redelivers :
    (Engine.init ⟨2, 5⟩ 1).exec tallyKsuid ⟨2, 5⟩ [.sendRaw payloadP 0 true, .receive 0 .arrived, .tick,
        .tick, .tick, .reap 0 0 true, .reap 0 0 true, .finalize 0 .ack true] =
      some ⟨⟨[], []⟩, 5, [⟨payloadP, ⟨tallyFrame 2 payloadP, true, 5, 1⟩⟩],
        [.scanning (tallyKsuid.text 3 0) [tallyFrame 2 payloadP]]⟩ ∧
    (Engine.init ⟨2, 5⟩ 1).exec tallyKsuid ⟨2, 5⟩ [.sendRaw payloadP 0 true, .receive 0 .arrived, .tick,
        .tick, .tick, .reap 0 0 true, .reap 0 0 true, .finalize 0 .ack true, .reap 0 0 true, .reap 0 0 true,
        .receive 0 .arrived] =
      some ⟨⟨[], [internalToListPayload (tallyKsuid.text 5 0) (payloadP, 1)]⟩, 5,
        [⟨payloadP, ⟨tallyFrame 2 payloadP, true, 5, 1⟩⟩,
          ⟨payloadP, ⟨internalToListPayload (tallyKsuid.text 5 0) (payloadP, 1), false, 5, 2⟩⟩],
        [.scanning (tallyKsuid.text 3 0) []]⟩ :=
  ⟨rfl, rfl⟩

section
variable (K : KsuidMs) (cfg : Config) (i : Nat) (p : Bytes) (c₀ : Nat)

/-- After the ack: no processing entry and no batch key of reaper `i` carries `p`, and the main
list holds as many entries carrying `p` as it did. -/
structure AckedInv (e : Engine) : Prop where
  processing : ∀ f ∈ e.redis.processing, payloadOf f ≠ some p
  main : carriers p e.redis.main = c₀
  keys : ∀ pc, e.reapers[i]? = some pc → ∀ k ∈ pc.keys, payloadOf k ≠ some p

theorem AckedInv.reap {e : Engine} (hI : AckedInv i p c₀ e) (rand : Nat) (ok : Bool) {e' : Engine}
    (h : e.step K cfg (.reap i rand ok) = some e') : AckedInv i p c₀ e' := by
  obtain ⟨pc, hpc, rfl⟩ := Engine.step_reap_eq_some K cfg h
  have hkeys := hI.keys pc hpc
  refine ⟨?_, ?_, ?_⟩
  · rcases pc.step_redis cfg.maxReceives (K.text (e.clock - cfg.ackDeadline) rand) (K.text e.clock rand) ok
      e.redis with hr | ⟨_, _, _, _, _, _, hr⟩ | ⟨_, key, _, _, _, hr⟩ <;> rw [hr]
    · exact hI.processing
    · exact hI.processing
    · exact fun f hf => hI.processing f (List.erase_subset key _ hf)
  · rcases pc.step_redis cfg.maxReceives (K.text (e.clock - cfg.ackDeadline) rand) (K.text e.clock rand) ok
      e.redis with hr | ⟨lim, key, keys, x, rfl, hx, hr⟩ | ⟨_, _, _, _, _, hr⟩ <;> rw [hr]
    · exact hI.main
    · have hkey := hkeys key (List.mem_cons_self _ _)
      rw [payloadOf_of_ok hx] at hkey
      simp [rpush, hI.main, K.sep_not_mem, hkey]
    · exact hI.main
  · intro pc' hpc' k hk
    rw [List.getElem?_set_self (List.getElem?_eq_some_iff.1 hpc).1, Option.some.injEq] at hpc'
    subst hpc'
    rcases pc.step_keys cfg.maxReceives (K.text (e.clock - cfg.ackDeadline) rand) (K.text e.clock rand) ok
      e.redis with hsub | ⟨-, hsub⟩
    · exact hkeys k (hsub hk)
    · exact hI.processing k (List.drop_subset _ _ (List.take_subset _ _ (hsub hk)))

/-- Reaper `i`, acks and nacks, and the clock keep `AckedInv`. -/
theorem AckedInv.step {e e' : Engine} {a : Action} (ha : a.isReaperOrAcker i = true)
    (hI : AckedInv i p c₀ e) (h : e.step K cfg a = some e') : AckedInv i p c₀ e' := by
  cases a with
  | tick => cases h; exact ⟨hI.1, hI.2, hI.3⟩
  | finalize j c ok =>
    obtain ⟨d, -, rfl⟩ := Engine.step_finalize_eq_some K cfg h
    refine ⟨fun f hf => hI.processing f ?_, hI.main, hI.keys⟩
    rcases call_processing d.acker c ok e.redis.processing with hl | hl <;> rw [hl] at hf
    exacts [hf, List.erase_subset _ _ hf]
  | reap j rand ok =>
    obtain rfl : j = i := by simpa [Action.isReaperOrAcker] using ha
    exact hI.reap K cfg _ p c₀ rand ok h
  | sendRaw => simp [Action.isReaperOrAcker] at ha
  | receive => simp [Action.isReaperOrAcker] at ha

/-- An ack that removes the only processing frame carrying `p` before reaper `i` has read its
batch: however the rest of that iteration and of later ones by the same reaper interleave with
acks, nacks and failures, no entry carrying `p` is added to the main list and none comes back to
the processing list. -/
theorem ack_before_snapshot_not_reenqueued (e₀ e : Engine) {j : Nat} {d : Delivery}
    (acts : List Action) (hd : e₀.deliveries[j]? = some d) (hfresh : d.acker.alreadyAckedOrNacked = false)
    (hf : d.acker.oldPayload ∈ e₀.redis.processing) (hp : payloadOf d.acker.oldPayload = some p)
    (honly : carriers p e₀.redis.processing = 1) (hbefore : ∀ pc, e₀.reapers[i]? = some pc → pc.keys = [])
    (hacts : ∀ a ∈ acts, a.isReaperOrAcker i = true)
    (h : e₀.exec K cfg (.finalize j .ack true :: acts) = some e) :
    carriers p e.redis.main = carriers p e₀.redis.main ∧ carriers p e.redis.processing = 0 := by
  rw [Engine.exec_cons, Option.bind_eq_some] at h
  obtain ⟨e₁, h₁, h⟩ := h
  have hack : (d.acker.call .ack).run true d.acker e₀.redis.processing =
      (.ok (), { d.acker with alreadyAckedOrNacked := true }, e₀.redis.processing.erase d.acker.oldPayload) := by
    simp [RedisFallbackAcker.call, RedisFallbackAcker.ack, hfresh, AckStep.run, lrem]
  simp only [Engine.step, hd, hack, Option.some.injEq] at h₁
  have h₀ : AckedInv i p (carriers p e₀.redis.main) e₁ := by
    rw [← h₁]
    refine ⟨carriers_eq_zero.1 ?_, rfl, fun pc hpc => by simp [hbefore pc hpc]⟩
    show carriers p (e₀.redis.processing.erase d.acker.oldPayload) = 0
    have := carriers_erase p d.acker.oldPayload e₀.redis.processing
    simp only [hf, hp, and_self, if_true, honly] at this
    omega
  have hI := Engine.exec_induction K cfg (fun (_ : Unit) e => AckedInv i p (carriers p e₀.redis.main) e)
    (fun _ _ => ()) (fun a => a.isReaperOrAcker i = true) (fun _ _ _ _ ha hI h => hI.step K cfg i p _ ha h)
    acts () e₁ e hacts h₀ h
  exact ⟨hI.main, carriers_eq_zero.2 hI.processing⟩

end

/-- The ack lands before the reaper's peek, with an overdue frame of another payload ahead of the
acknowledged one: the reaper's iteration pushes that other frame back, and nothing carrying the
acknowledged payload. -/
theorem ack_before_snapshot_not_reenqueued_of_peek :
    let e₀ : Engine := ⟨⟨[], [tallyFrame 0 payloadQ, tallyFrame 0 payloadP]⟩, 3,
      [⟨payloadP, ⟨tallyFrame 0 payloadP, false, 5, 1⟩⟩], [.idle]⟩
    let e : Engine := ⟨⟨[internalToListPayload (tallyKsuid.text 3 0) (payloadQ, 1)], []⟩, 3,
      [⟨payloadP, ⟨tallyFrame 0 payloadP, true, 5, 1⟩⟩],
      [.scanning (tallyKsuid.text 1 0) []]⟩
    e₀.exec tallyKsuid ⟨2, 5⟩ [.finalize 0 .ack true, .reap 0 0 true, .reap 0 0 true, .reap 0 0 true,
        .reap 0 0 true] = some e ∧
      carriers payloadP e.redis.main = carriers payloadP e₀.redis.main ∧
      carriers payloadP e.redis.processing = 0 := by
  intro e₀ e
  have h : e₀.exec tallyKsuid ⟨2, 5⟩ [.finalize 0 .ack true, .reap 0 0 true, .reap 0 0 true, .reap 0 0 true,
      .reap 0 0 true] = some e := by decide
  exact ⟨h, @ack_before_snapshot_not_reenqueued tallyKsuid ⟨2, 5⟩ 0 payloadP e₀ e 0
    ⟨payloadP, ⟨tallyFrame 0 payloadP, false, 5, 1⟩⟩ (List.replicate 4 (.reap 0 0 true)) rfl rfl
    (by decide) (by decide) (by decide) (by decide) (by decide) h⟩

end Omniqueue

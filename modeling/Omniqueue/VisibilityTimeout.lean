import Omniqueue.InterleavedEngine

/-!
# When the reaper may reclaim a frame

The validity limit is an id made at the reaper's clock minus the ack deadline, and a frame is
overdue when its bytes compare below it. A frame's bytes start with the id its writer gave it:
`send_raw`, or the reaper's push. `BRPOPLPUSH` moves the bytes without rewriting them, so the
deadline runs from the frame's last write, whatever time it then waited in the main list.
-/

namespace Omniqueue

/-- What a reaper iteration knows at horizon `h`, the clock minus the ack deadline: its limit is
an id made at a time up to `h`, and the key it is reclaiming compares below the limit. -/
def ReaperPc.WithinDeadline (K : KsuidMs) (h : Nat) : ReaperPc → Prop
  | .idle => True
  | .peeked lim | .scanning lim _ => ∃ t r, lim = K.text t r ∧ t ≤ h
  | .removing lim key _ => (∃ t r, lim = K.text t r ∧ t ≤ h) ∧ lexLe key lim = true

section
variable (K : KsuidMs)

theorem ReaperPc.WithinDeadline.mono {h h' : Nat} (hh : h ≤ h') :
    ∀ {pc : ReaperPc}, pc.WithinDeadline K h → pc.WithinDeadline K h'
  | .idle, _ => trivial
  | .peeked _, ⟨t, r, hl, ht⟩ | .scanning _ _, ⟨t, r, hl, ht⟩ => ⟨t, r, hl, ht.trans hh⟩
  | .removing _ _ _, ⟨⟨t, r, hl, ht⟩, hle⟩ => ⟨⟨t, r, hl, ht.trans hh⟩, hle⟩

/-- A reaper step whose peek makes its limit at horizon `h` keeps `WithinDeadline` at `h`. -/
theorem ReaperPc.WithinDeadline.step {h : Nat} {pc : ReaperPc} (hpc : pc.WithinDeadline K h)
    (m rand : Nat) (newId : Bytes) (ok : Bool) (r : Redis) :
    (pc.step m (K.text h rand) newId ok r).1.WithinDeadline K h := by
  rcases pc.step_cases m (K.text h rand) newId ok r with hs | ⟨-, -, hs⟩ | ⟨_, rfl, hs⟩ |
      ⟨_, _, _, rfl, hs⟩ | ⟨_, _, _, _, rfl, hle, -, ⟨hs, -⟩ | ⟨hs, -⟩⟩ | ⟨_, _, _, rfl, -, hs⟩ <;> rw [hs]
  · trivial
  · exact ⟨h, rand, rfl, le_rfl⟩
  · exact hpc
  · exact hpc
  · exact ⟨hpc, hle⟩
  · exact ⟨hpc, hle⟩
  · exact hpc.1

variable (cfg : Config)

/-- Every reaper of the engine is within the deadline of the engine's clock. -/
def Engine.ReapersWithinDeadline (e : Engine) : Prop :=
  ∀ pc ∈ e.reapers, pc.WithinDeadline K (e.clock - cfg.ackDeadline)

theorem Engine.reapersWithinDeadline_init (n : Nat) : (Engine.init cfg n).ReapersWithinDeadline K cfg := by
  intro pc hpc
  rw [(List.mem_replicate.mp hpc).2]
  trivial

theorem Engine.ReapersWithinDeadline.step {e e' : Engine} {a : Action}
    (hI : e.ReapersWithinDeadline K cfg) (h : e.step K cfg a = some e') :
    e'.ReapersWithinDeadline K cfg := by
  cases a with
  | tick =>
    cases h
    exact fun pc hpc => (hI pc hpc).mono K (Nat.sub_le_sub_right (Nat.le_succ _) _)
  | sendRaw => cases h; exact hI
  | receive =>
    rcases Engine.step_receive_cases K cfg h with rfl | ⟨_, _, _, ⟨_, _, rfl⟩ | ⟨_, rfl⟩⟩ <;> exact hI
  | finalize =>
    obtain ⟨d, -, rfl⟩ := Engine.step_finalize_eq_some K cfg h
    exact hI
  | reap i rand ok =>
    obtain ⟨pc, hpc, rfl⟩ := Engine.step_reap_eq_some K cfg h
    intro pc' hpc'
    rcases List.mem_or_eq_of_mem_set hpc' with hpc' | rfl
    · exact hI pc' hpc'
    · exact (hI pc (List.getElem?_mem hpc)).step K _ _ _ _ _

end

/-- From a send at tick 5 to a receive at tick 15: the frame waited ten ticks in the main list, was
claimed at tick 15, and with an ack deadline of 5 the reaper pushes it back and removes it from
the processing list at tick 15 itself. -/
theorem reaper_reclaims_at_claim_time :
    (Engine.init ⟨5, 5⟩ 1).exec tallyKsuid ⟨5, 5⟩ (.sendRaw payloadP 0 true :: List.replicate 10 .tick) =
      some ⟨⟨[tallyFrame 5 payloadP], []⟩, 15, [], [.idle]⟩ ∧
    (Engine.init ⟨5, 5⟩ 1).exec tallyKsuid ⟨5, 5⟩ (.sendRaw payloadP 0 true :: List.replicate 10 .tick ++
        [.receive 0 .arrived, .reap 0 0 true, .reap 0 0 true, .reap 0 0 true, .reap 0 0 true]) =
      some ⟨⟨[internalToListPayload (tallyKsuid.text 15 0) (payloadP, 1)], []⟩, 15,
        [⟨payloadP, ⟨tallyFrame 5 payloadP, false, 5, 1⟩⟩], [.scanning (tallyKsuid.text 10 0) []]⟩ :=
  ⟨rfl, rfl⟩

section
variable (K : KsuidMs) (cfg : Config)

/-- In every run, whatever fails, a reaper that has decided to reclaim a key (re-enqueued or
dropped, its `LREM` next) found it overdue against a limit made at most the ack deadline before
now: the id the key was written with carries a time `w` with `w + ack_deadline ≤ now`. The clock
starts at the ack deadline and never goes back, so `now - ack_deadline` is never cut off at 0. -/
theorem reclaim_after_deadline_from_write (n : Nat) (acts : List Action) (e : Engine)
    (h : (Engine.init cfg n).exec K cfg acts = some e) {i : Nat} {lim key : Bytes} {keys : List Bytes}
    (hi : e.reapers[i]? = some (.removing lim key keys)) {w r : Nat} {rest : Bytes}
    (hkey : key = K.text w r ++ rest) : w + cfg.ackDeadline ≤ e.clock := by
  have hI := Engine.exec_induction K cfg (fun (_ : Unit) e => e.ReapersWithinDeadline K cfg)
    (fun _ _ => ()) (fun _ => True) (fun _ _ _ _ _ hI h => hI.step K cfg h) acts () _ e
    (fun _ _ => trivial) (Engine.reapersWithinDeadline_init K cfg n) h
  obtain ⟨⟨t, r', rfl, ht⟩, hle⟩ := hI _ (List.getElem?_mem hi)
  subst hkey
  have hw : w ≤ e.clock - cfg.ackDeadline := (K.le_of_lexLe hle).trans ht
  have hD := Engine.ackDeadline_le_clock K cfg n acts e h
  omega

end

/-- A frame sent at tick 7 and claimed at tick 15: the reaper at tick 15, between its push and
its `LREM`, reclaims it as written at tick 7, and 7 + 5 ≤ 15. -/
theorem reclaim_after_deadline_from_write_of_wait :
    let acts := List.replicate 2 .tick ++ .sendRaw payloadP 0 true :: List.replicate 8 .tick ++
      [.receive 0 .arrived, .reap 0 0 true, .reap 0 0 true, .reap 0 0 true]
    ∃ e, (Engine.init ⟨5, 5⟩ 1).exec tallyKsuid ⟨5, 5⟩ acts = some e ∧
      e.reapers[0]? = some (.removing (tallyKsuid.text 10 0) (tallyFrame 7 payloadP) []) ∧
      7 + 5 ≤ e.clock := by
  intro acts
  exact ⟨_, rfl, rfl, @reclaim_after_deadline_from_write tallyKsuid ⟨5, 5⟩ 1 acts _ rfl 0 _ _ _ rfl 7 0 _ rfl⟩

end Omniqueue

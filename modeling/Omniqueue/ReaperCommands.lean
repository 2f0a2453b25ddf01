import Omniqueue.ReaperIteration

/-!
# The reaper iteration, one Redis command at a time

Other tasks' commands can run between any two commands of a reaper iteration, so for the
interleaved engine the iteration is a small machine whose state says which command comes next.
Run with every command succeeding and nothing in between, it does what `reenqueueTimedOutMessages`
does (`reaperSteps_reenqueueTimedOutMessages`).
-/

namespace Omniqueue

/-- Where a reaper iteration stands between two of its commands. After the peek found an overdue
entry it is `peeked`; `scanning` holds the batch keys not yet handled; in `removing` the key was
pushed back (or dropped at the limit) and its `LREM` comes next. -/
inductive ReaperPc where
  | idle
  | peeked (validityLimit : Bytes)
  | scanning (validityLimit : Bytes) (keys : List Bytes)
  | removing (validityLimit : Bytes) (key : Bytes) (keys : List Bytes)
  deriving DecidableEq, Repr

/-- The batch keys the iteration may still reclaim. -/
def ReaperPc.keys : ReaperPc → List Bytes
  | .idle | .peeked _ => []
  | .scanning _ keys => keys
  | .removing _ key keys => key :: keys

/-- One step of a reaper iteration. `limit` is the validity limit a peek made now computes,
`newId` the id a push made now gives, `ok` whether the connection and the command succeed; a
failure or an undecodable overdue key ends the iteration. -/
def ReaperPc.step (maxReceives : Nat) (limit newId : Bytes) (ok : Bool) :
    ReaperPc → Redis → ReaperPc × Redis
  | .idle, r =>
    if ok then
      match lrange r.processing 0 1 with
      | key :: _ => (if lexLe key limit then .peeked limit else .idle, r)
      | [] => (.idle, r)
    else (.idle, r)
  | .peeked lim, r => (if ok then .scanning lim (lrange r.processing 0 batchSize) else .idle, r)
  | .scanning _ [], r => (.idle, r)
  | .scanning lim (key :: keys), r =>
    if lexLe key lim then
      match internalFromList key with
      | .error _ => (.idle, r)
      | .ok internal =>
        if internal.2 ≥ maxReceives then (.removing lim key keys, r)
        else if ok then
          (.removing lim key keys, { r with main := rpush r.main (internalToListPayload newId internal) })
        else (.idle, r)
    else (.scanning lim keys, r)
  | .removing lim key keys, r =>
    if ok then (.scanning lim keys, { r with processing := lrem r.processing key }) else (.idle, r)

/-- Everything one reaper step can do: end the iteration with the lists unchanged, pass the peek,
take the batch, skip a key that is not overdue, decide to reclaim an overdue key that decodes
(pushing its frame back below the attempt limit), or remove the key it reclaimed. -/
theorem ReaperPc.step_cases (m : Nat) (limit newId : Bytes) (ok : Bool) (pc : ReaperPc) (r : Redis) :
    pc.step m limit newId ok r = (.idle, r) ∨
    (pc = .idle ∧ (∃ key keys, lrange r.processing 0 1 = key :: keys ∧ lexLe key limit = true) ∧
      pc.step m limit newId ok r = (.peeked limit, r)) ∨
    (∃ lim, pc = .peeked lim ∧ pc.step m limit newId ok r = (.scanning lim (lrange r.processing 0 batchSize), r)) ∨
    (∃ lim key keys, pc = .scanning lim (key :: keys) ∧ pc.step m limit newId ok r = (.scanning lim keys, r)) ∨
    (∃ lim key keys x, pc = .scanning lim (key :: keys) ∧ lexLe key lim = true ∧ internalFromList key = .ok x ∧
      (pc.step m limit newId ok r = (.removing lim key keys, r) ∧ m ≤ x.2 ∨
       pc.step m limit newId ok r =
        (.removing lim key keys, { r with main := rpush r.main (internalToListPayload newId x) }) ∧ x.2 < m)) ∨
    (∃ lim key keys, pc = .removing lim key keys ∧ ok = true ∧
      pc.step m limit newId ok r = (.scanning lim keys, { r with processing := lrem r.processing key })) := by
  generalize hs : pc.step m limit newId ok r = s
  cases pc with
  | idle =>
    simp only [ReaperPc.step] at hs
    split at hs
    · split at hs
      · rename_i key keys hl
        split at hs
        · exact .inr (.inl ⟨rfl, ⟨key, keys, hl, ‹_›⟩, hs.symm⟩)
        · exact .inl hs.symm
      · exact .inl hs.symm
    · exact .inl hs.symm
  | peeked lim =>
    simp only [ReaperPc.step] at hs
    split at hs
    · exact .inr (.inr (.inl ⟨lim, rfl, hs.symm⟩))
    · exact .inl hs.symm
  | scanning lim keys =>
    cases keys with
    | nil => exact .inl hs.symm
    | cons key keys =>
      simp only [ReaperPc.step] at hs
      split at hs
      · rename_i hle
        split at hs
        · exact .inl hs.symm
        · rename_i x hx
          split at hs
          · exact .inr (.inr (.inr (.inr (.inl ⟨lim, key, keys, x, rfl, hle, hx, .inl ⟨hs.symm, ‹_›⟩⟩))))
          · split at hs
            · exact .inr (.inr (.inr (.inr (.inl ⟨lim, key, keys, x, rfl, hle, hx,
                .inr ⟨hs.symm, Nat.lt_of_not_le ‹_›⟩⟩))))
            · exact .inl hs.symm
      · exact .inr (.inr (.inr (.inl ⟨lim, key, keys, rfl, hs.symm⟩)))
  | removing lim key keys =>
    simp only [ReaperPc.step] at hs
    split at hs
    · exact .inr (.inr (.inr (.inr (.inr ⟨lim, key, keys, rfl, ‹_›, hs.symm⟩))))
    · exact .inl hs.symm

end Omniqueue

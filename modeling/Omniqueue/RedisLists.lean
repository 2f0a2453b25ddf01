import Omniqueue.FrameCodec

/-!
# The main and processing lists and the commands the engine issues on them

A Redis list is kept head first: `LPUSH` adds at index 0, `RPUSH` at the end, `BRPOPLPUSH` takes
the last entry of the source and puts it at index 0 of the destination, and `LREM` with count 1
removes the first entry equal to the value.
-/

namespace Omniqueue

/-- The two lists of one queue: `queue_key` and `processing_queue_key`. -/
structure Redis where
  main : List Bytes
  processing : List Bytes
  deriving DecidableEq, Repr

def Redis.empty : Redis := ⟨[], []⟩

def lpush (v : Bytes) (l : List Bytes) : List Bytes := v :: l

def rpush (l : List Bytes) (v : Bytes) : List Bytes := l ++ [v]

/-- `LREM key 1 v`. -/
def lrem (l : List Bytes) (v : Bytes) : List Bytes := l.erase v

/-- `LRANGE key start stop` for non-negative indices, both ends included. -/
def lrange (l : List Bytes) (start stop : Nat) : List Bytes := (l.drop start).take (stop + 1 - start)

/-- `BRPOPLPUSH queue_key processing_queue_key`: the entry moved, or `none` when the main list is
empty at that moment. -/
def brpoplpush (r : Redis) : Option (Bytes × Redis) :=
  match r.main.getLast? with
  | none => none
  | some v => some (v, ⟨r.main.dropLast, v :: r.processing⟩)

theorem brpoplpush_eq_some {r : Redis} {v : Bytes} {r' : Redis} (h : brpoplpush r = some (v, r')) :
    r.main = r'.main ++ [v] ∧ r'.processing = v :: r.processing := by
  unfold brpoplpush at h
  split at h
  · cases h
  · rename_i w hw
    simp only [Option.some.injEq, Prod.mk.injEq] at h
    obtain ⟨rfl, rfl⟩ := h
    exact ⟨(List.dropLast_append_getLast? _ hw).symm, rfl⟩

@[simp] theorem brpoplpush_append (main : List Bytes) (v : Bytes) (processing : List Bytes) :
    brpoplpush ⟨main ++ [v], processing⟩ = some (v, ⟨main, v :: processing⟩) := by
  simp [brpoplpush]

@[simp] theorem brpoplpush_nil (processing : List Bytes) :
    brpoplpush ⟨[], processing⟩ = none := rfl

/-- `List.perm_cons_erase` for the `==` of `Bytes` that `LREM` (`List.erase`) uses. -/
theorem perm_cons_erase_bytes {f : Bytes} {l : List Bytes} (h : f ∈ l) : l.Perm (f :: l.erase f) :=
  let ⟨_, _, _, e₁, e₂⟩ := List.exists_erase_eq h
  e₂ ▸ e₁ ▸ List.perm_middle

/-- The number of entries of a list that carry `payload`. -/
def carriers (payload : Bytes) (l : List Bytes) : Nat := l.countP (fun f => payloadOf f = some payload)

@[simp] theorem carriers_nil (p : Bytes) : carriers p [] = 0 := rfl

@[simp] theorem carriers_cons (p f : Bytes) (l : List Bytes) :
    carriers p (f :: l) = carriers p l + if payloadOf f = some p then 1 else 0 := by
  simp [carriers, List.countP_cons]

@[simp] theorem carriers_append (p : Bytes) (l l' : List Bytes) :
    carriers p (l ++ l') = carriers p l + carriers p l' := List.countP_append _ _ _

theorem carriers_eq_zero {p : Bytes} {l : List Bytes} : carriers p l = 0 ↔ ∀ f ∈ l, payloadOf f ≠ some p := by
  simp [carriers, List.countP_eq_zero]

/-- Entries carrying `payload` across both lists. -/
def Redis.carriers (payload : Bytes) (r : Redis) : Nat :=
  Omniqueue.carriers payload r.main + Omniqueue.carriers payload r.processing

theorem carriers_erase (p v : Bytes) (l : List Bytes) :
    carriers p l = carriers p (l.erase v) + if v ∈ l ∧ payloadOf v = some p then 1 else 0 := by
  induction l with
  | nil => simp
  | cons x l ih =>
    by_cases hx : x = v
    · subst hx
      simp
    · simp only [List.erase_cons, beq_iff_eq, hx, if_false, carriers_cons, ih, List.mem_cons,
        Ne.symm hx, false_or]
      omega

end Omniqueue

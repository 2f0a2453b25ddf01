import Omniqueue.FrameBytes

/-!
# The list frame codec

A frame on the Redis lists is `<id>|<attempts>|<bytes>`, where `attempts` counts the receives
before the frame was written. The two functions that write and read it,
`internal_to_list_payload` and `internal_from_list`, live in `backends/redis/mod.rs`, outside the
modelled sources; they are modelled from the frame format of the specification, including the
legacy form `<id>|<bytes>`, and from how the callers in `fallback.rs` read the count: the acker's
`num_receives` and the reaper's checks take it to include the receive being made, one more than the
stored field. `regenerate_key` is the composition used by `add_to_main_queue`.
-/

namespace Omniqueue

/-- The `crate::QueueError` values the fallback engine returns. `generic` and `backend` are both
`QueueError::Generic`: the first with a text, the second wrapping a pool or Redis error. -/
inductive QueueError where
  | generic (msg : String)
  | backend
  | cannotAckOrNackTwice
  | unsupported (msg : String)
  | malformedFrame
  deriving DecidableEq, Repr

/-- Results compare by value, so that a sequence of calls can be filtered on them. -/
instance instDecidableEqExcept {ε α : Type} [DecidableEq ε] [DecidableEq α] :
    DecidableEq (Except ε α)
  | .ok a, .ok b => if h : a = b then isTrue (h ▸ rfl) else isFalse fun e => h (Except.ok.inj e)
  | .error a, .error b => if h : a = b then isTrue (h ▸ rfl) else isFalse fun e => h (Except.error.inj e)
  | .ok _, .error _ => isFalse Except.noConfusion
  | .error _, .ok _ => isFalse Except.noConfusion

/-- Modelled from the spec: `internal_to_list_payload` (`backends/redis/mod.rs`) writes
`id || "|" || itoa(attempts) || "|" || bytes`; the fresh id it generates is passed in. -/
def internalToListPayload (id : Bytes) : Bytes × Nat → Bytes
  | (payload, numReceives) => id ++ sep :: (decimal numReceives ++ sep :: payload)

/-- `internal_from_list` (`backends/redis/mod.rs`): splits at the first two separators and
returns the payload with the number of receives including the one being made, the stored count
plus one. With one separator the frame is the legacy `<id>|<bytes>`, with no earlier receive;
anything else is a malformed frame. -/
def internalFromList (f : Bytes) : Except QueueError (Bytes × Nat) :=
  match splitSep f with
  | none => .error .malformedFrame
  | some (_, rest) =>
    match splitSep rest with
    | none => .ok (rest, 1)
    | some (attempts, payload) =>
      match parseDecimal attempts with
      | some n => .ok (payload, n + 1)
      | none => .error .malformedFrame

/-- `regenerate_key`: `internal_to_list_payload(internal_from_list(key)?)` under a new id. -/
def regenerateKey (id key : Bytes) : Except QueueError Bytes :=
  (internalFromList key).map (internalToListPayload id)

/-- Every payload, `|` and leading digits included, reads back, with the stored count plus one. -/
@[simp] theorem internalFromList_internalToListPayload {id : Bytes} (h : sep ∉ id) (x : Bytes × Nat) :
    internalFromList (internalToListPayload id x) = .ok (x.1, x.2 + 1) := by
  obtain ⟨payload, n⟩ := x
  simp [internalToListPayload, internalFromList, h, sep_not_mem_decimal]

/-- A legacy frame `<id>|<bytes>` whose bytes hold no separator reads as received once. -/
theorem internalFromList_legacy {id payload : Bytes} (h : sep ∉ id) (hp : sep ∉ payload) :
    internalFromList (id ++ sep :: payload) = .ok (payload, 1) := by
  simp [internalFromList, h, splitSep_eq_none.mpr hp]

/-- A frame that decodes has been received at least once, counting the receive being made. -/
theorem internalFromList_pos {f : Bytes} {x : Bytes × Nat} (h : internalFromList f = .ok x) : 0 < x.2 := by
  unfold internalFromList at h
  split at h
  · cases h
  · split at h
    · cases h; exact Nat.one_pos
    · split at h
      · cases h; exact Nat.succ_pos _
      · cases h

theorem regenerateKey_of_ok {key : Bytes} {x : Bytes × Nat} (h : internalFromList key = .ok x)
    (id : Bytes) : regenerateKey id key = .ok (internalToListPayload id x) := by
  simp [regenerateKey, h, Except.map]

/-- The frame `regenerate_key` makes reads one receive more than the key it was made from. -/
theorem internalFromList_regenerateKey {id key g : Bytes} (hid : sep ∉ id) {x : Bytes × Nat}
    (hx : internalFromList key = .ok x) (hg : regenerateKey id key = .ok g) :
    internalFromList g = .ok (x.1, x.2 + 1) := by
  rw [regenerateKey_of_ok hx, Except.ok.injEq] at hg
  rw [← hg, internalFromList_internalToListPayload hid]

/-- The payload a list entry carries, if `internal_from_list` accepts it. -/
def payloadOf (f : Bytes) : Option Bytes :=
  match internalFromList f with
  | .ok (payload, _) => some payload
  | .error _ => none

@[simp] theorem payloadOf_internalToListPayload {id : Bytes} (h : sep ∉ id) (x : Bytes × Nat) :
    payloadOf (internalToListPayload id x) = some x.1 := by
  simp [payloadOf, h]

theorem payloadOf_of_ok {f : Bytes} {x : Bytes × Nat} (h : internalFromList f = .ok x) :
    payloadOf f = some x.1 := by
  simp [payloadOf, h]

/-! ## Frames for the traces -/

/-- The frame `send_raw` writes for `payload` at tick `t` under the tally ids. -/
def tallyFrame (t : Nat) (payload : Bytes) : Bytes :=
  internalToListPayload (tallyKsuid.text t 0) (payload, 0)

/-- `p` and `q` as one-byte payloads. -/
def payloadP : Bytes := [112]

def payloadQ : Bytes := [113]

end Omniqueue

import Omniqueue.FallbackConsumer

/-!
# One iteration of the reaper, run without interference

`reenqueue_timed_out_messages` peeks at the first entry of the processing list, which is the most
recent claim since `BRPOPLPUSH` pushes at index 0. If that entry is overdue it takes the first
`BATCH_SIZE + 1` entries and, in order, decodes each overdue one, pushes it back to the tail of
the main list below the attempt limit, storing the count it read, one more than the key's, and
removes it with `LREM`. A key that does not decode
ends the iteration with its error. Here every command succeeds; `ReaperCommands` splits the same
iteration into its commands.

`add_to_main_queue` regenerates a list of keys and pushes them with one `LPUSH`.
-/

namespace Omniqueue

/-- `BATCH_SIZE`. -/
def batchSize : Nat := 50

section
variable (newId : Bytes → Bytes) (validityLimit : Bytes) (maxReceives : Nat)

/-- The loop `for key in keys`; `newId key` is the id of the frame pushed back for `key`. -/
def reenqueueBatch : List Bytes → Redis → Redis × Except QueueError Unit
  | [], r => (r, .ok ())
  | key :: keys, r =>
    if lexLe key validityLimit then
      match internalFromList key with
      | .error e => (r, .error e)
      | .ok internal =>
        let r := if internal.2 ≥ maxReceives then r
          else { r with main := rpush r.main (internalToListPayload (newId key) internal) }
        reenqueueBatch keys { r with processing := lrem r.processing key }
    else reenqueueBatch keys r

/-- `reenqueue_timed_out_messages` with every command succeeding. -/
def reenqueueTimedOutMessages (r : Redis) : Redis × Except QueueError Unit :=
  match lrange r.processing 0 1 with
  | key :: _ =>
    if lexLe key validityLimit then
      reenqueueBatch newId validityLimit maxReceives (lrange r.processing 0 batchSize) r
    else (r, .ok ())
  | [] => (r, .ok ())

@[simp] theorem reenqueueBatch_nil (r : Redis) :
    reenqueueBatch newId validityLimit maxReceives [] r = (r, .ok ()) := rfl

theorem reenqueueBatch_not_overdue {key : Bytes} (h : lexLe key validityLimit = false)
    (keys : List Bytes) (r : Redis) :
    reenqueueBatch newId validityLimit maxReceives (key :: keys) r =
      reenqueueBatch newId validityLimit maxReceives keys r := by
  simp [reenqueueBatch, h]

theorem reenqueueBatch_rejected {key : Bytes} {e : QueueError} (h : lexLe key validityLimit = true)
    (hk : internalFromList key = .error e) (keys : List Bytes) (r : Redis) :
    reenqueueBatch newId validityLimit maxReceives (key :: keys) r = (r, .error e) := by
  simp [reenqueueBatch, h, hk]

/-- The effect of one overdue key that decodes: pushed back below the limit, then removed. -/
def reclaimKey (key : Bytes) (internal : Bytes × Nat) (r : Redis) : Redis :=
  let r := if internal.2 ≥ maxReceives then r
    else { r with main := rpush r.main (internalToListPayload (newId key) internal) }
  { r with processing := lrem r.processing key }

theorem reenqueueBatch_accepted {key : Bytes} {internal : Bytes × Nat}
    (h : lexLe key validityLimit = true) (hk : internalFromList key = .ok internal)
    (keys : List Bytes) (r : Redis) :
    reenqueueBatch newId validityLimit maxReceives (key :: keys) r =
      reenqueueBatch newId validityLimit maxReceives keys (reclaimKey newId maxReceives key internal r) := by
  simp [reenqueueBatch, h, hk, reclaimKey]

/-- The loop over `xs ++ ys` runs `ys` after `xs` unless `xs` stopped with an error. -/
theorem reenqueueBatch_append (xs ys : List Bytes) (r : Redis) :
    reenqueueBatch newId validityLimit maxReceives (xs ++ ys) r =
      match reenqueueBatch newId validityLimit maxReceives xs r with
      | (r', .ok ()) => reenqueueBatch newId validityLimit maxReceives ys r'
      | (r', .error e) => (r', .error e) := by
  induction xs generalizing r with
  | nil => rfl
  | cons key xs ih =>
    cases hle : lexLe key validityLimit
    · simp only [List.cons_append, reenqueueBatch_not_overdue _ _ _ hle, ih]
    · cases hk : internalFromList key with
      | error e => simp [reenqueueBatch_rejected _ _ _ hle hk]
      | ok internal => simp only [List.cons_append, reenqueueBatch_accepted _ _ _ hle hk, ih]

/-- A processing entry that no key of the batch names is never removed. -/
theorem mem_reenqueueBatch_processing {k : Bytes} (keys : List Bytes) (hk : k ∉ keys) :
    ∀ r : Redis, k ∈ r.processing → k ∈ (reenqueueBatch newId validityLimit maxReceives keys r).1.processing := by
  induction keys with
  | nil => intro r h; exact h
  | cons key keys ih =>
    intro r h
    simp only [List.mem_cons, not_or] at hk
    cases hle : lexLe key validityLimit
    · rw [reenqueueBatch_not_overdue _ _ _ hle]
      exact ih hk.2 r h
    · cases hx : internalFromList key with
      | error e => rw [reenqueueBatch_rejected _ _ _ hle hx]; exact h
      | ok internal =>
        rw [reenqueueBatch_accepted _ _ _ hle hx]
        apply ih hk.2
        simp only [reclaimKey, lrem]
        split <;> exact (List.mem_erase_of_ne hk.1).mpr h

theorem reenqueueBatch_ok (keys : List Bytes)
    (h : ∀ k ∈ keys, lexLe k validityLimit = true → ∃ x, internalFromList k = .ok x) :
    ∀ r : Redis, (reenqueueBatch newId validityLimit maxReceives keys r).2 = .ok () := by
  induction keys with
  | nil => intro r; rfl
  | cons key keys ih =>
    intro r
    have hrest := ih fun k hk => h k (List.mem_cons_of_mem _ hk)
    cases hle : lexLe key validityLimit
    · rw [reenqueueBatch_not_overdue _ _ _ hle]; exact hrest r
    · obtain ⟨x, hx⟩ := h key (List.mem_cons_self _ _) hle
      rw [reenqueueBatch_accepted _ _ _ hle hx]; exact hrest _

/-- The frame pushed back for an overdue key below the limit is the frame `regenerate_key` makes
of the key under the same id: both store the count read from the key, one more than its own. -/
theorem reenqueueBatch_push_eq_regenerateKey {key : Bytes} {x : Bytes × Nat}
    (hle : lexLe key validityLimit = true) (hx : internalFromList key = .ok x) (hlt : x.2 < maxReceives)
    (r : Redis) :
    reenqueueBatch newId validityLimit maxReceives [key] r =
      (⟨r.main ++ [internalToListPayload (newId key) x], r.processing.erase key⟩, .ok ()) ∧
    regenerateKey (newId key) key = .ok (internalToListPayload (newId key) x) := by
  refine ⟨?_, regenerateKey_of_ok hx _⟩
  rw [reenqueueBatch_accepted _ _ _ hle hx]
  simp [reclaimKey, Nat.not_le.mpr hlt, rpush, lrem]

/-- The frame the loop pushes back for `key`: only an overdue key that decodes below the attempt
limit gives one. -/
def reclaimedFrame (key : Bytes) : Option Bytes :=
  if lexLe key validityLimit then
    match internalFromList key with
    | .ok internal => if internal.2 ≥ maxReceives then none else some (internalToListPayload (newId key) internal)
    | .error _ => none
  else none

theorem reclaimedFrame_of_ok {key : Bytes} {x : Bytes × Nat} (hle : lexLe key validityLimit = true)
    (hx : internalFromList key = .ok x) (hlt : x.2 < maxReceives) :
    reclaimedFrame newId validityLimit maxReceives key = some (internalToListPayload (newId key) x) := by
  simp [reclaimedFrame, hle, hx, Nat.not_le.mpr hlt]

/-- The frame decodes to a number of receives below `max_receives`: a reaper that finds it overdue
pushes it back rather than dropping it. -/
def belowMaxReceives (maxReceives : Nat) (f : Bytes) : Bool :=
  match internalFromList f with
  | .ok x => decide (x.2 < maxReceives)
  | .error _ => false

theorem belowMaxReceives_of_ok {m : Nat} {f : Bytes} {x : Bytes × Nat} (hx : internalFromList f = .ok x) :
    belowMaxReceives m f = decide (x.2 < m) := by
  simp [belowMaxReceives, hx]

/-- The loop over a batch whose overdue keys all decode appends the frames it pushes back to the
tail of the main list in the order of the batch, and removes the overdue keys one `LREM` each in
the same order. -/
theorem reenqueueBatch_eq_of_decodes (keys : List Bytes)
    (h : ∀ k ∈ keys, lexLe k validityLimit = true → ∃ x, internalFromList k = .ok x) (r : Redis) :
    reenqueueBatch newId validityLimit maxReceives keys r =
      (⟨r.main ++ keys.filterMap (reclaimedFrame newId validityLimit maxReceives),
        (keys.filter fun k => lexLe k validityLimit).foldl lrem r.processing⟩, .ok ()) := by
  induction keys generalizing r with
  | nil => simp
  | cons key keys ih =>
    have hrest := ih fun k hk => h k (List.mem_cons_of_mem _ hk)
    cases hle : lexLe key validityLimit
    · rw [reenqueueBatch_not_overdue _ _ _ hle, hrest]
      simp [reclaimedFrame, hle]
    · obtain ⟨x, hx⟩ := h key (List.mem_cons_self _ _) hle
      rw [reenqueueBatch_accepted _ _ _ hle hx, hrest]
      by_cases hmax : x.2 ≥ maxReceives <;> simp [reclaimKey, reclaimedFrame, hle, hx, hmax, rpush]

end

/-! ## The peek -/

section
variable (newId : Bytes → Bytes) (validityLimit : Bytes) (maxReceives : Nat)

/-- The iteration sleeps without scanning whenever the entry at index 0, the most recent claim,
is not overdue, whatever the entries behind it are. -/
theorem reenqueueTimedOutMessages_of_head {key : Bytes} {keys : List Bytes} {main : List Bytes}
    (h : lexLe key validityLimit = false) :
    reenqueueTimedOutMessages newId validityLimit maxReceives ⟨main, key :: keys⟩ =
      (⟨main, key :: keys⟩, .ok ()) := by
  simp [reenqueueTimedOutMessages, lrange, h]

/-- A processing list whose newest claim (index 0) is fresh and whose older entry is overdue and
decodes: the iteration at the limit of tick 5 sleeps and reclaims nothing. -/
theorem reaper_sleeps_behind_fresh_claim :
    lexLe (tallyFrame 0 payloadP) (tallyKsuid.text 5 0) = true ∧
    internalFromList (tallyFrame 0 payloadP) = .ok (payloadP, 1) ∧
    reenqueueTimedOutMessages (fun _ => tallyKsuid.text 9 0) (tallyKsuid.text 5 0) 5
        ⟨[], [tallyFrame 9 payloadQ, tallyFrame 0 payloadP]⟩ =
      (⟨[], [tallyFrame 9 payloadQ, tallyFrame 0 payloadP]⟩, .ok ()) := by
  decide

theorem reenqueueTimedOutMessages_of_overdue_head {r : Redis} {key : Bytes} {keys : List Bytes}
    (hr : r.processing = key :: keys) (h : lexLe key validityLimit = true) :
    reenqueueTimedOutMessages newId validityLimit maxReceives r =
      reenqueueBatch newId validityLimit maxReceives (lrange r.processing 0 batchSize) r := by
  simp [reenqueueTimedOutMessages, hr, lrange, h]

/-- An iteration whose newest claim is overdue, over a batch whose overdue keys all decode,
succeeds. It appends one frame per overdue key below the attempt limit to the tail of the main
list, in the order of the batch, so that the pop end yields them before every frame already
waiting, the oldest claim of the batch first; and it removes each overdue batch key with one
`LREM`. -/
theorem reenqueueTimedOutMessages_eq_of_decodes {r : Redis} {key : Bytes} {keys : List Bytes}
    (hr : r.processing = key :: keys) (hk : lexLe key validityLimit = true)
    (h : ∀ k ∈ lrange r.processing 0 batchSize, lexLe k validityLimit = true → ∃ x, internalFromList k = .ok x) :
    reenqueueTimedOutMessages newId validityLimit maxReceives r =
      (⟨r.main ++ (lrange r.processing 0 batchSize).filterMap (reclaimedFrame newId validityLimit maxReceives),
        ((lrange r.processing 0 batchSize).filter fun k => lexLe k validityLimit).foldl lrem r.processing⟩,
        .ok ()) := by
  rw [reenqueueTimedOutMessages_of_overdue_head _ _ _ hr hk, reenqueueBatch_eq_of_decodes _ _ _ _ h]

/-- `LREM` of each of the first `n` entries, in order, removes exactly those entries. -/
theorem foldl_lrem_take : ∀ (n : Nat) (l : List Bytes), (l.take n).foldl lrem l = l.drop n
  | 0, _ => rfl
  | _ + 1, [] => rfl
  | n + 1, x :: xs => by simp [lrem, foldl_lrem_take n xs]

/-- An iteration over a processing list whose entries are all overdue and decode takes off its
first `BATCH_SIZE + 1` entries and pushes back the frames of those below the attempt limit. -/
theorem reenqueueTimedOutMessages_of_all_overdue (r : Redis)
    (h : ∀ k ∈ r.processing, lexLe k validityLimit = true ∧ ∃ x, internalFromList k = .ok x) :
    (reenqueueTimedOutMessages newId validityLimit maxReceives r).1 =
      ⟨r.main ++ (r.processing.take (batchSize + 1)).filterMap (reclaimedFrame newId validityLimit maxReceives),
        r.processing.drop (batchSize + 1)⟩ := by
  obtain ⟨main, processing⟩ := r
  cases processing with
  | nil => simp [reenqueueTimedOutMessages, lrange]
  | cons key keys =>
    have hb : lrange (key :: keys) 0 batchSize = (key :: keys).take (batchSize + 1) := by simp [lrange]
    have hbatch : ∀ k ∈ (key :: keys).take (batchSize + 1), lexLe k validityLimit = true ∧
        ∃ x, internalFromList k = .ok x := fun k hk => h k (List.mem_of_mem_take hk)
    rw [reenqueueTimedOutMessages_of_overdue_head _ _ _ rfl (h key (List.mem_cons_self _ _)).1]
    simp only [hb]
    rw [reenqueueBatch_eq_of_decodes _ _ _ _ fun k hk _ => (hbatch k hk).2,
      List.filter_eq_self.2 fun k hk => (hbatch k hk).1, foldl_lrem_take]

/-- Two overdue claims and one frame waiting in the main list: both claims are pushed back at the
pop end, the older claim (index 1) nearest it. -/
theorem reenqueueTimedOutMessages_eq_of_decodes_two_claims :
    let r : Redis := ⟨[tallyFrame 4 payloadQ], [tallyFrame 1 payloadQ, tallyFrame 0 payloadP]⟩
    let newId : Bytes → Bytes := fun _ => tallyKsuid.text 9 0
    let lim := tallyKsuid.text 5 0
    reenqueueTimedOutMessages newId lim 5 r =
        (⟨[tallyFrame 4 payloadQ, internalToListPayload (tallyKsuid.text 9 0) (payloadQ, 1),
          internalToListPayload (tallyKsuid.text 9 0) (payloadP, 1)], []⟩, .ok ()) ∧
      reenqueueTimedOutMessages newId lim 5 r =
        (⟨r.main ++ (lrange r.processing 0 batchSize).filterMap (reclaimedFrame newId lim 5),
          ((lrange r.processing 0 batchSize).filter fun k => lexLe k lim).foldl lrem r.processing⟩, .ok ()) := by
  intro r newId lim
  have h : ∀ k ∈ lrange r.processing 0 batchSize, lexLe k lim = true → ∃ x, internalFromList k = .ok x := by
    intro k hk _
    rcases List.mem_pair.1 hk with rfl | rfl
    exacts [⟨(payloadQ, 1), by decide⟩, ⟨(payloadP, 1), by decide⟩]
  exact ⟨by decide, @reenqueueTimedOutMessages_eq_of_decodes newId lim 5 r (tallyFrame 1 payloadQ)
    [tallyFrame 0 payloadP] rfl (by decide) h⟩

/-- An iteration stops at the first overdue key of its batch that `internal_from_list` rejects.
If the newest claim is overdue, it returns that error after reclaiming only the overdue keys
before it; otherwise it sleeps with nothing changed. The rejected key and every entry after it
that no earlier key names stay in the processing list. -/
theorem reenqueueTimedOutMessages_stops_at_rejected {r : Redis} {pre post : List Bytes}
    {bad : Bytes} {e : QueueError}
    (hbatch : lrange r.processing 0 batchSize = pre ++ bad :: post)
    (hpre : ∀ k ∈ pre, lexLe k validityLimit = true → ∃ x, internalFromList k = .ok x)
    (hbad : lexLe bad validityLimit = true) (hrej : internalFromList bad = .error e) :
    reenqueueTimedOutMessages newId validityLimit maxReceives r =
      (if r.processing.head?.any (lexLe · validityLimit) then
        ((reenqueueBatch newId validityLimit maxReceives pre r).1, .error e)
      else (r, .ok ())) ∧
    ∀ k ∈ bad :: post, k ∉ pre → k ∈ r.processing →
      k ∈ (reenqueueTimedOutMessages newId validityLimit maxReceives r).1.processing := by
  have hstop : reenqueueTimedOutMessages newId validityLimit maxReceives r =
      (if r.processing.head?.any (lexLe · validityLimit) then
        ((reenqueueBatch newId validityLimit maxReceives pre r).1, .error e)
      else (r, .ok ())) := by
    obtain ⟨main, processing⟩ := r
    cases processing with
    | nil => simp [lrange] at hbatch
    | cons key keys =>
      cases hk : lexLe key validityLimit
      · simp only [List.head?_cons, Option.any_some, hk]
        exact reenqueueTimedOutMessages_of_head _ _ _ hk
      · simp only [List.head?_cons, Option.any_some, hk, if_true]
        rw [reenqueueTimedOutMessages_of_overdue_head _ _ _ rfl hk, hbatch, reenqueueBatch_append]
        obtain ⟨r', hr'⟩ : ∃ r', reenqueueBatch newId validityLimit maxReceives pre ⟨main, key :: keys⟩ =
            (r', .ok ()) :=
          ⟨_, Prod.ext rfl (reenqueueBatch_ok _ _ _ pre hpre _)⟩
        simp [hr', reenqueueBatch_rejected _ _ _ hbad hrej]
  refine ⟨hstop, fun k _ hkpre hk => ?_⟩
  rw [hstop]
  split
  · exact mem_reenqueueBatch_processing _ _ _ pre hkpre r hk
  · exact hk

/-- The rejected key first in the batch and overdue: the iteration returns its error at once,
and both entries stay. -/
theorem reenqueueTimedOutMessages_stops_at_rejected_head :
    let r : Redis := ⟨[], [[48], tallyFrame 0 payloadP]⟩
    let run := reenqueueTimedOutMessages (fun _ => tallyKsuid.text 9 0) (tallyKsuid.text 5 0) 5
    run r =
      (if r.processing.head?.any (lexLe · (tallyKsuid.text 5 0)) then
        ((reenqueueBatch (fun _ => tallyKsuid.text 9 0) (tallyKsuid.text 5 0) 5 [] r).1, .error .malformedFrame)
      else (r, .ok ())) ∧
    ∀ k ∈ [[48], tallyFrame 0 payloadP], k ∉ ([] : List Bytes) → k ∈ r.processing →
      k ∈ (run r).1.processing :=
  @reenqueueTimedOutMessages_stops_at_rejected (fun _ => tallyKsuid.text 9 0) (tallyKsuid.text 5 0) 5
    ⟨[], [[48], tallyFrame 0 payloadP]⟩ [] [tallyFrame 0 payloadP] [48] .malformedFrame
    rfl (by simp) (by decide) (by decide)

/-- An overdue frame with no separator at index 0 ends every iteration before the overdue frame
behind it: the state comes back unchanged with the decode error. -/
theorem undecodable_frame_blocks_reaper :
    lexLe (tallyFrame 0 payloadP) (tallyKsuid.text 5 0) = true ∧
    internalFromList (tallyFrame 0 payloadP) = .ok (payloadP, 1) ∧
    reenqueueTimedOutMessages (fun _ => tallyKsuid.text 9 0) (tallyKsuid.text 5 0) 5
        ⟨[], [[48], tallyFrame 0 payloadP]⟩ =
      (⟨[], [[48], tallyFrame 0 payloadP]⟩, .error .malformedFrame) := by
  decide

end

end Omniqueue

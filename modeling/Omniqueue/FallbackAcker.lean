import Omniqueue.RedisLists

/-!
# The fallback acker

`RedisFallbackAcker` finalises one delivery. `ack` removes, by exact value, the frame its
`BRPOPLPUSH` moved into the processing list; `nack` below the attempt limit only marks the
delivery and leaves the frame to the reaper, and at the limit hands off to `ack`. Whatever the
failures of the pool and of `LREM`, one call at most succeeds, and the processing list loses at
most that one frame.
-/

namespace Omniqueue

/-- `RedisFallbackAcker`; its pool and `processing_queue_key` are the processing list itself. -/
structure RedisFallbackAcker where
  oldPayload : Bytes
  alreadyAckedOrNacked : Bool
  maxReceives : Nat
  numReceives : Nat
  deriving DecidableEq, Repr

/-- What one `ack` or `nack` call does: return without touching Redis, or get a connection and
issue `LREM processing 1 value`, continuing with `next` if both succeed. -/
inductive AckStep where
  | done (result : Except QueueError Unit) (next : RedisFallbackAcker)
  | lrem (value : Bytes) (next : RedisFallbackAcker)

namespace RedisFallbackAcker

def ack (a : RedisFallbackAcker) : AckStep :=
  if a.alreadyAckedOrNacked then .done (.error .cannotAckOrNackTwice) a
  else .lrem a.oldPayload { a with alreadyAckedOrNacked := true }

def nack (a : RedisFallbackAcker) : AckStep :=
  if a.numReceives ≥ a.maxReceives then a.ack
  else if a.alreadyAckedOrNacked then .done (.error .cannotAckOrNackTwice) a
  else .done (.ok ()) { a with alreadyAckedOrNacked := true }

def setAckDeadline (_a : RedisFallbackAcker) (_duration : Nat) : Except QueueError Unit :=
  .error (.unsupported "set_ack_deadline is not yet supported by redis fallback backend")

end RedisFallbackAcker

/-- Run a call on the processing list; `ok` says whether the pool and the `LREM` succeed. A
failed call changes neither the acker nor the list. -/
def AckStep.run (ok : Bool) (a : RedisFallbackAcker) (processing : List Bytes) :
    AckStep → Except QueueError Unit × RedisFallbackAcker × List Bytes
  | .done r next => (r, next, processing)
  | .lrem v next =>
    if ok then (.ok (), next, Omniqueue.lrem processing v) else (.error .backend, a, processing)

def AckStep.issues : AckStep → Bool
  | .done .. => false
  | .lrem .. => true

inductive AckCall where
  | ack
  | nack
  deriving DecidableEq, Repr

def RedisFallbackAcker.call (a : RedisFallbackAcker) : AckCall → AckStep
  | .ack => a.ack
  | .nack => a.nack

/-- What one call returned, whether it reached Redis, and the flag before and after it. -/
structure AckEvent where
  result : Except QueueError Unit
  issued : Bool
  flagBefore : Bool
  flagAfter : Bool
  deriving DecidableEq, Repr

/-- A sequence of calls on one acker, each paired with the success of its Redis commands. -/
def runCalls (a : RedisFallbackAcker) (l : List Bytes) :
    List (AckCall × Bool) → List AckEvent × RedisFallbackAcker × List Bytes
  | [] => ([], a, l)
  | (c, ok) :: cs =>
    let o := (a.call c).run ok a l
    let rest := runCalls o.2.1 o.2.2 cs
    (⟨o.1, (a.call c).issues, a.alreadyAckedOrNacked, o.2.1.alreadyAckedOrNacked⟩ :: rest.1, rest.2)

/-! ## One call -/

section
variable (a : RedisFallbackAcker) (c : AckCall) (ok : Bool) (l : List Bytes)

theorem call_of_finalised (h : a.alreadyAckedOrNacked = true) :
    a.call c = .done (.error .cannotAckOrNackTwice) a := by
  cases c <;> simp [RedisFallbackAcker.call, RedisFallbackAcker.nack, RedisFallbackAcker.ack, h]

/-- Everything one call can do: succeed, marking the acker and removing at most its own frame,
or fail leaving acker and list as they were. -/
theorem call_cases :
    let o := (a.call c).run ok a l
    (o.1 = .ok () ∧ a.alreadyAckedOrNacked = false ∧ o.2.1.alreadyAckedOrNacked = true ∧
      o.2.1.oldPayload = a.oldPayload ∧ (o.2.2 = l ∨ o.2.2 = l.erase a.oldPayload)) ∨
    (o.1 ≠ .ok () ∧ o.2.1 = a ∧ o.2.2 = l) := by
  have hack : ∀ a : RedisFallbackAcker, let o := a.ack.run ok a l
      (o.1 = .ok () ∧ a.alreadyAckedOrNacked = false ∧ o.2.1.alreadyAckedOrNacked = true ∧
        o.2.1.oldPayload = a.oldPayload ∧ (o.2.2 = l ∨ o.2.2 = l.erase a.oldPayload)) ∨
      (o.1 ≠ .ok () ∧ o.2.1 = a ∧ o.2.2 = l) := by
    intro a
    unfold RedisFallbackAcker.ack
    cases hf : a.alreadyAckedOrNacked <;> cases ok <;> simp [AckStep.run, hf, Omniqueue.lrem]
  cases c with
  | ack => exact hack a
  | nack =>
    simp only [RedisFallbackAcker.call, RedisFallbackAcker.nack]
    split
    · exact hack a
    · cases hf : a.alreadyAckedOrNacked <;> simp [AckStep.run, hf]

/-- A call leaves the acker as it was or only sets its flag. -/
theorem call_acker :
    ((a.call c).run ok a l).2.1 = a ∨ ((a.call c).run ok a l).2.1 = { a with alreadyAckedOrNacked := true } := by
  cases c <;> simp only [RedisFallbackAcker.call, RedisFallbackAcker.nack, RedisFallbackAcker.ack] <;>
    repeat' (first | split | simp [AckStep.run])

/-- A call leaves the processing list as it was or removes one entry equal to its acker's frame. -/
theorem call_processing :
    ((a.call c).run ok a l).2.2 = l ∨ ((a.call c).run ok a l).2.2 = l.erase a.oldPayload := by
  rcases call_cases a c ok l with ⟨-, -, -, -, hl⟩ | ⟨-, -, hl⟩
  exacts [hl, .inl hl]

/-- Only an `ack`, or a `nack` at the attempt limit, on an acker not yet finalised and with its
`LREM` succeeding, changes the processing list, and then by removing the acker's frame. -/
theorem call_erases (h : ((a.call c).run ok a l).2.2 ≠ l) :
    ok = true ∧ a.alreadyAckedOrNacked = false ∧ (c = .ack ∨ a.maxReceives ≤ a.numReceives) ∧
      ((a.call c).run ok a l).2.2 = l.erase a.oldPayload := by
  cases ok <;> cases c <;>
    simp only [RedisFallbackAcker.call, RedisFallbackAcker.nack, RedisFallbackAcker.ack] at h ⊢ <;>
    repeat' (first | split at h | split)
  all_goals simp_all [AckStep.run, Omniqueue.lrem]

/-- After a successful call every later call fails with `CannotAckOrNackTwice`, reaches no
Redis command and changes nothing. -/
theorem runCalls_of_finalised (h : a.alreadyAckedOrNacked = true) (cs : List (AckCall × Bool)) :
    runCalls a l cs =
      (cs.map fun _ => ⟨.error .cannotAckOrNackTwice, false, true, true⟩, a, l) := by
  induction cs with
  | nil => rfl
  | cons c cs ih =>
    simp [runCalls, call_of_finalised a c.1 h, AckStep.run, AckStep.issues, h, ih]

end

/-! ## A whole sequence of calls -/

section
variable (a : RedisFallbackAcker) (l : List Bytes) (calls : List (AckCall × Bool))

theorem runCalls_ok_le_one : ((runCalls a l calls).1.filter (·.result = .ok ())).length ≤ 1 := by
  induction calls generalizing a l with
  | nil => simp [runCalls]
  | cons c cs ih =>
    rcases call_cases a c.1 c.2 l with ⟨hok, -, hfin, -⟩ | ⟨hne, hkeep, hl⟩
    · simp [runCalls, hok, runCalls_of_finalised _ _ hfin]
    · simpa [runCalls, hne, hkeep, hl] using ih a l

theorem runCalls_after_ok : ∀ pre e post, (runCalls a l calls).1 = pre ++ e :: post →
    e.result = .ok () → ∀ e' ∈ post, e'.result = .error .cannotAckOrNackTwice ∧ e'.issued = false := by
  induction calls generalizing a l with
  | nil => intro pre e post h; simp [runCalls] at h
  | cons c cs ih =>
    intro pre e post h he e' he'
    cases pre with
    | nil =>
      simp only [runCalls, List.nil_append, List.cons.injEq] at h
      obtain ⟨rfl, rfl⟩ := h
      rcases call_cases a c.1 c.2 l with ⟨-, -, hfin, -⟩ | ⟨hne, -⟩
      · rw [runCalls_of_finalised _ _ hfin] at he'
        simp only [List.mem_map] at he'
        obtain ⟨-, -, rfl⟩ := he'
        exact ⟨rfl, rfl⟩
      · exact absurd he hne
    | cons e₀ pre =>
      simp only [runCalls, List.cons_append, List.cons.injEq] at h
      exact ih _ _ pre e post h.2 he e' he'

theorem runCalls_backend_keeps_flag :
    ∀ e ∈ (runCalls a l calls).1, e.result = .error .backend → e.flagAfter = e.flagBefore := by
  induction calls generalizing a l with
  | nil => simp [runCalls]
  | cons c cs ih =>
    intro e he hb
    simp only [runCalls, List.mem_cons] at he
    rcases he with rfl | he
    · rcases call_cases a c.1 c.2 l with ⟨hok, -⟩ | ⟨-, hkeep, -⟩
      · simp [hok] at hb
      · simp [hkeep]
    · exact ih _ _ e he hb

theorem runCalls_processing :
    (runCalls a l calls).2.2 = l ∨ (runCalls a l calls).2.2 = l.erase a.oldPayload := by
  induction calls generalizing a l with
  | nil => simp [runCalls]
  | cons c cs ih =>
    rcases call_cases a c.1 c.2 l with ⟨-, -, hfin, hold, hl⟩ | ⟨-, hkeep, hl⟩
    · simpa [runCalls, runCalls_of_finalised _ _ hfin, hold] using hl
    · simpa [runCalls, hkeep, hl] using ih a l

end

/-- `ack` and `nack` are one-shot on every acker and every sequence of calls and failures: at
most one call succeeds; every call after it fails with `CannotAckOrNackTwice` without reaching
Redis; a backend failure leaves the flag as it was; and the processing list loses at most one
entry, the first copy of `old_payload`, every other entry staying in place. -/
theorem ack_nack_one_shot (a : RedisFallbackAcker) (l : List Bytes) (calls : List (AckCall × Bool)) :
    ((runCalls a l calls).1.filter (·.result = .ok ())).length ≤ 1 ∧
    (∀ pre e post, (runCalls a l calls).1 = pre ++ e :: post → e.result = .ok () →
      ∀ e' ∈ post, e'.result = .error .cannotAckOrNackTwice ∧ e'.issued = false) ∧
    (∀ e ∈ (runCalls a l calls).1, e.result = .error .backend → e.flagAfter = e.flagBefore) ∧
    ((runCalls a l calls).2.2 = l ∨ (runCalls a l calls).2.2 = l.erase a.oldPayload) :=
  ⟨runCalls_ok_le_one a l calls, runCalls_after_ok a l calls,
    runCalls_backend_keeps_flag a l calls, runCalls_processing a l calls⟩

end Omniqueue

import Omniqueue.FallbackAcker

/-!
# Sending and receiving

`send_raw` frames a payload with attempts 0 and pushes it at the head of the main list;
`receive_with_timeout` moves the tail of the main list to the head of the processing list with
one `BRPOPLPUSH` and decodes it into a delivery whose acker keeps the moved bytes. The server may
run the `BRPOPLPUSH` and its reply still never reach the consumer: the frame is then in the
processing list with no delivery. On an empty main list the command waits, up to the timeout;
with timeout 0, as `receive` calls it, it waits until a frame arrives.
-/

namespace Omniqueue

/-- `Delivery`: the payload and the acker that finalises it. -/
structure Delivery where
  payload : Bytes
  acker : RedisFallbackAcker
  deriving DecidableEq, Repr

/-- `send_raw`, the frame taking the fresh id `id`. -/
def sendRaw (ok : Bool) (id payload : Bytes) (r : Redis) : Except QueueError Unit × Redis :=
  if ok then (.ok (), { r with main := lpush (internalToListPayload id (payload, 0)) r.main })
  else (.error .backend, r)

def internalToDelivery (internal : Bytes × Nat) (maxReceives : Nat) (oldPayload : Bytes) : Delivery :=
  ⟨internal.1, ⟨oldPayload, false, maxReceives, internal.2⟩⟩

/-- How a consumer's `BRPOPLPUSH` ends: the pool or the command fails and nothing moves; the
server runs the command but no reply reaches the consumer (the connection drops, or the receive is
cancelled while it waits); or the reply arrives. -/
inductive Reply where
  | failed
  | lost
  | arrived
  deriving DecidableEq, Repr

/-- `receive_with_timeout`, its `BRPOPLPUSH` ending as `reply` says. On an empty main list the
command returns no frame once a positive `timeout` has passed; with `timeout` 0 it waits for a
frame, so the call has not returned (`none`). A moved frame that does not decode stays in the
processing list and its error is returned. -/
def receiveWithTimeout (reply : Reply) (timeout maxReceives : Nat) (r : Redis) :
    Option (Except QueueError (Option Delivery) × Redis) :=
  match reply, brpoplpush r with
  | .failed, _ => some (.error .backend, r)
  | .lost, moved => some (.error .backend, (moved.map Prod.snd).getD r)
  | .arrived, none => if timeout = 0 then none else some (.ok none, r)
  | .arrived, some (oldPayload, r') =>
    match internalFromList oldPayload with
    | .ok internal => some (.ok (some (internalToDelivery internal maxReceives oldPayload)), r')
    | .error e => some (.error e, r')

/-- `receive`: `receive_with_timeout` with timeout 0; a result with no delivery is the error
`No data`. -/
def receive (reply : Reply) (maxReceives : Nat) (r : Redis) : Option (Except QueueError Delivery × Redis) :=
  (receiveWithTimeout reply 0 maxReceives r).map fun o =>
    (o.1.bind fun d => match d with
      | some d => .ok d
      | none => .error (.generic "No data"), o.2)

/-- `receive_all`: one `BRPOPLPUSH` with the deadline as its timeout, whatever `max_messages` is. -/
def receiveAll (reply : Reply) (maxReceives deadline _maxMessages : Nat) (r : Redis) :
    Option (Except QueueError (List Delivery) × Redis) :=
  (receiveWithTimeout reply deadline maxReceives r).map fun o => (o.1.map Option.toList, o.2)

/-- `LPUSH key v₁ … vₙ`: each value in turn at the head. The server refuses an empty value list. -/
def lpushAll (vs l : List Bytes) : Option (List Bytes) :=
  if vs = [] then none else some (vs.reverse ++ l)

/-- `add_to_main_queue`: every key is regenerated before anything is sent, so a key that does not
decode fails the call with no `LPUSH`; then one `LPUSH` of all the new frames. -/
def addToMainQueue (ok : Bool) (newId : Bytes → Bytes) (keys main : List Bytes) :
    Except QueueError Unit × List Bytes :=
  match keys.mapM fun key => regenerateKey (newId key) key with
  | .error e => (.error e, main)
  | .ok newKeys =>
    match if ok then lpushAll newKeys main else none with
    | some main' => (.ok (), main')
    | none => (.error .backend, main)

/-- The deliveries a `receive_with_timeout` result adds. -/
def received : Except QueueError (Option Delivery) → List Delivery
  | .ok (some d) => [d]
  | _ => []

theorem sendRaw_main (id payload : Bytes) (r : Redis) :
    (sendRaw true id payload r).2 = ⟨internalToListPayload id (payload, 0) :: r.main, r.processing⟩ := rfl

@[simp] theorem sendRaw_fail (id payload : Bytes) (r : Redis) : (sendRaw false id payload r).2 = r := rfl

@[simp] theorem receiveWithTimeout_fail (t m : Nat) (r : Redis) :
    receiveWithTimeout .failed t m r = some (.error .backend, r) := rfl

/-- Everything one `receive_with_timeout` can do: fail, or time out on an empty main list, with
the lists unchanged; or move the last frame `f` of the main list to the head of the processing
list, and then deliver it, lose its reply, or return the error `internal_from_list` gives. -/
theorem receiveWithTimeout_cases {reply : Reply} {t m : Nat} {r : Redis}
    {o : Except QueueError (Option Delivery) × Redis} (h : receiveWithTimeout reply t m r = some o) :
    (o.2 = r ∧ (o.1 = .error .backend ∨ r.main = [] ∧ t ≠ 0 ∧ o.1 = .ok none)) ∨
    ∃ f main, r.main = main ++ [f] ∧ o.2 = ⟨main, f :: r.processing⟩ ∧
      ((reply = .arrived ∧ ∃ x, internalFromList f = .ok x ∧ o.1 = .ok (some (internalToDelivery x m f))) ∨
       (reply = .lost ∧ o.1 = .error .backend) ∨
       (∃ err, internalFromList f = .error err ∧ o.1 = .error err)) := by
  obtain ⟨rmain, processing⟩ := r
  rcases rmain.eq_nil_or_concat with rfl | ⟨main, f, rfl⟩
  · cases reply <;> simp only [receiveWithTimeout, brpoplpush_nil, Option.map_none', Option.getD_none] at h
    · cases h; exact .inl ⟨rfl, .inl rfl⟩
    · cases h; exact .inl ⟨rfl, .inl rfl⟩
    · split at h
      · cases h
      · cases h; exact .inl ⟨rfl, .inr ⟨rfl, ‹_›, rfl⟩⟩
  · rw [List.concat_eq_append] at h ⊢
    cases reply <;> simp only [receiveWithTimeout, brpoplpush_append, Option.map_some', Option.getD_some] at h
    · cases h; exact .inl ⟨rfl, .inl rfl⟩
    · cases h; exact .inr ⟨f, main, rfl, rfl, .inr (.inl ⟨rfl, rfl⟩)⟩
    · cases hx : internalFromList f with
      | ok x => rw [hx] at h; cases h; exact .inr ⟨f, main, rfl, rfl, .inl ⟨rfl, x, hx, rfl⟩⟩
      | error err => rw [hx] at h; cases h; exact .inr ⟨f, main, rfl, rfl, .inr (.inr ⟨err, hx, rfl⟩)⟩

/-- A `receive_with_timeout` whose `BRPOPLPUSH` moves a frame that `internal_from_list` rejects
returns that error, and the frame stays at the head of the processing list. -/
theorem receiveWithTimeout_of_rejected (t m : Nat) {r : Redis} {main : List Bytes} {f : Bytes}
    {err : QueueError} (hm : r.main = main ++ [f]) (hrej : internalFromList f = .error err) :
    receiveWithTimeout .arrived t m r = some (.error err, ⟨main, f :: r.processing⟩) := by
  obtain ⟨_, processing⟩ := r
  subst hm
  simp [receiveWithTimeout, hrej]

/-- When `receive` returns an error, the lists are as they were, or its `BRPOPLPUSH` moved the
frame at the pop end of the main list to the head of the processing list and then the reply was
lost or `internal_from_list` rejected the frame with the error returned. -/
theorem receive_error {reply : Reply} {m : Nat} {r r' : Redis} {err : QueueError}
    (h : receive reply m r = some (.error err, r')) :
    r' = r ∨ ∃ f main, r.main = main ++ [f] ∧ r' = ⟨main, f :: r.processing⟩ ∧
      (reply = .lost ∨ internalFromList f = .error err) := by
  simp only [receive, Option.map_eq_some', Prod.mk.injEq] at h
  obtain ⟨o, ho, herr, rfl⟩ := h
  rcases receiveWithTimeout_cases ho with ⟨hr, -⟩ | ⟨f, main, hm, hr, ⟨-, _, -, hd⟩ | ⟨hl, -⟩ | ⟨err', hx, hd⟩⟩
  · exact .inl hr
  · simp [hd, Except.bind] at herr
  · exact .inr ⟨f, main, hm, hr, .inl hl⟩
  · simp only [hd, Except.bind, Except.error.injEq] at herr
    exact .inr ⟨f, main, hm, hr, .inr (herr ▸ hx)⟩

/-- `receive` never returns `No data`: with timeout 0 its `BRPOPLPUSH` waits for a frame. -/
theorem receive_ne_noData {reply : Reply} {m : Nat} {r : Redis} {o : Except QueueError Delivery × Redis}
    (h : receive reply m r = some o) : o.1 ≠ .error (.generic "No data") := by
  simp only [receive, Option.map_eq_some'] at h
  obtain ⟨o', ho, rfl⟩ := h
  rcases receiveWithTimeout_cases ho with ⟨-, hd | ⟨-, ht, -⟩⟩ | ⟨f, main, -, -, ⟨-, _, -, hd⟩ | ⟨-, hd⟩ | ⟨err, hx, hd⟩⟩
  · simp [hd, Except.bind]
  · exact absurd rfl ht
  · simp [hd, Except.bind]
  · simp [hd, Except.bind]
  · have : err ≠ .generic "No data" := by
      unfold internalFromList at hx
      split at hx
      · cases hx; simp
      · split at hx
        · cases hx
        · split at hx <;> cases hx; simp
    simpa [hd, Except.bind] using this

/-- When `receive_all` returns an error, the same holds as for `receive`. -/
theorem receiveAll_error {reply : Reply} {m t n : Nat} {r r' : Redis} {err : QueueError}
    (h : receiveAll reply m t n r = some (.error err, r')) :
    r' = r ∨ ∃ f main, r.main = main ++ [f] ∧ r' = ⟨main, f :: r.processing⟩ ∧
      (reply = .lost ∨ internalFromList f = .error err) := by
  simp only [receiveAll, Option.map_eq_some', Prod.mk.injEq] at h
  obtain ⟨o, ho, herr, rfl⟩ := h
  rcases receiveWithTimeout_cases ho with ⟨hr, -⟩ | ⟨f, main, hm, hr, ⟨-, _, -, hd⟩ | ⟨hl, -⟩ | ⟨err', hx, hd⟩⟩
  · exact .inl hr
  · simp [hd, Except.map] at herr
  · exact .inr ⟨f, main, hm, hr, .inl hl⟩
  · simp only [hd, Except.map, Except.error.injEq] at herr
    exact .inr ⟨f, main, hm, hr, .inr (herr ▸ hx)⟩

end Omniqueue

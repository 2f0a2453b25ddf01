import Omniqueue.FallbackConsumer

/-!
# `receive_all` through the type-erased consumer

`DynConsumer::receive_all` clamps `max_messages` to the maximum the backend declares, if any, and
hands it to the backend's `receive_all`. The fallback `receive_all` ignores it and issues one
`BRPOPLPUSH`, so it returns at most one delivery for every `max_messages`, and one even when
`max_messages` is 0.
-/

namespace Omniqueue

/-- The clamp of `DynConsumer::receive_all`: `min(max_messages, backend_max.get())` when the
backend's `max_messages` is a `NonZeroUsize`. -/
def clampMaxMessages (backendMax : Option {n : Nat // 0 < n}) (maxMessages : Nat) : Nat :=
  match backendMax with
  | some backendMax => min maxMessages backendMax.val
  | none => maxMessages

/-- `DynConsumerInner::receive_all` over the fallback consumer: each delivery is rebuilt from its
payload and acker. -/
def DynConsumerInner.receiveAll (reply : Reply) (maxReceives deadline maxMessages : Nat) (r : Redis) :
    Option (Except QueueError (List Delivery) × Redis) :=
  (Omniqueue.receiveAll reply maxReceives deadline maxMessages r).map fun o =>
    (o.1.map fun xs => xs.map fun d => ⟨d.payload, d.acker⟩, o.2)

/-- `DynConsumer::receive_all` over the fallback consumer, whose `max_messages` is `backendMax`. -/
def DynConsumer.receiveAll (backendMax : Option {n : Nat // 0 < n}) (reply : Reply)
    (maxReceives deadline maxMessages : Nat) (r : Redis) : Option (Except QueueError (List Delivery) × Redis) :=
  DynConsumerInner.receiveAll reply maxReceives deadline (clampMaxMessages backendMax maxMessages) r

/-- The wrapper returns what the backend returns. -/
@[simp] theorem DynConsumer.receiveAll_eq (backendMax : Option {n : Nat // 0 < n}) (reply : Reply)
    (m t n : Nat) (r : Redis) :
    DynConsumer.receiveAll backendMax reply m t n r =
      Omniqueue.receiveAll reply m t (clampMaxMessages backendMax n) r := by
  simp only [DynConsumer.receiveAll, DynConsumerInner.receiveAll]
  cases Omniqueue.receiveAll reply m t (clampMaxMessages backendMax n) r with
  | none => rfl
  | some o => obtain ⟨_ | _, _⟩ := o <;> simp [Except.map]

/-- Whatever `max_messages` is, the fallback `receive_all` returns at most one delivery and moves
at most one frame, from the pop end of the main list to the head of the processing list. -/
theorem receiveAll_at_most_one {reply : Reply} {m t n : Nat} {r : Redis}
    {o : Except QueueError (List Delivery) × Redis} (h : receiveAll reply m t n r = some o) :
    (∀ ds, o.1 = .ok ds → ds.length ≤ 1) ∧
    ∃ moved : List Bytes, moved.length ≤ 1 ∧ r.main = o.2.main ++ moved ∧ o.2.processing = moved ++ r.processing := by
  simp only [receiveAll, Option.map_eq_some'] at h
  obtain ⟨o', ho, rfl⟩ := h
  refine ⟨fun ds hds => ?_, ?_⟩
  · cases h₁ : o'.1 with
    | error => simp [h₁, Except.map] at hds
    | ok d => simp only [h₁, Except.map, Except.ok.injEq] at hds; subst hds; cases d <;> simp
  · rcases receiveWithTimeout_cases ho with ⟨hr, -⟩ | ⟨f, main, hm, hr, -⟩ <;> simp only [hr]
    · exact ⟨[], Nat.zero_le _, (List.append_nil _).symm, rfl⟩
    · exact ⟨[f], le_rfl, hm, rfl⟩

/-- With `max_messages = 0`, whatever maximum the backend declares and whatever the deadline,
`receive_all` called directly or through `DynConsumer` returns one delivery and moves one frame to
the processing list whenever the frame at the pop end of the main list decodes. -/
theorem receiveAll_exceeds_zero_max (backendMax : Option {n : Nat // 0 < n}) (m t : Nat) {r : Redis}
    {main : List Bytes} {f : Bytes} {x : Bytes × Nat} (hm : r.main = main ++ [f])
    (hx : internalFromList f = .ok x) :
    receiveAll .arrived m t 0 r = some (.ok [internalToDelivery x m f], ⟨main, f :: r.processing⟩) ∧
    DynConsumer.receiveAll backendMax .arrived m t 0 r =
      some (.ok [internalToDelivery x m f], ⟨main, f :: r.processing⟩) := by
  have h : receiveAll .arrived m t 0 r = some (.ok [internalToDelivery x m f], ⟨main, f :: r.processing⟩) := by
    obtain ⟨_, processing⟩ := r
    subst hm
    simp [receiveAll, receiveWithTimeout, hx, Except.map]
  refine ⟨h, ?_⟩
  rw [DynConsumer.receiveAll_eq]
  cases backendMax <;> simpa [clampMaxMessages, receiveAll] using h

/-- One sent message in the main list and `max_messages = 0`, with no declared maximum, as in the
fallback engine, and a deadline of one tick: the message is delivered. -/
theorem receiveAll_exceeds_zero_max_of_one_frame :
    let r : Redis := ⟨[tallyFrame 0 payloadP], []⟩
    receiveAll .arrived 5 1 0 r = some (.ok [internalToDelivery (payloadP, 1) 5 (tallyFrame 0 payloadP)],
      ⟨[], [tallyFrame 0 payloadP]⟩) ∧
    DynConsumer.receiveAll none .arrived 5 1 0 r =
      some (.ok [internalToDelivery (payloadP, 1) 5 (tallyFrame 0 payloadP)], ⟨[], [tallyFrame 0 payloadP]⟩) :=
  @receiveAll_exceeds_zero_max none 5 1 ⟨[tallyFrame 0 payloadP], []⟩ [] (tallyFrame 0 payloadP) (payloadP, 1)
    rfl rfl

end Omniqueue

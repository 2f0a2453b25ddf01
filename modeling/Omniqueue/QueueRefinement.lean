import Mathlib.Logic.Relation
import Omniqueue.InterleavedEngine

/-!
# The engine implements an at-least-once queue

What the fallback engine is for, said in payloads: a queue that sends at its head and takes from
its end, keeps what it took in flight until it is settled, and may put back at its end a payload it
took before. A take hands the payload to a consumer, or to none when the reply of the
`BRPOPLPUSH` is lost. The requeue does not ask that the payload still be in flight: a reaper reads
its batch, and an ack may settle a payload of the batch before the reaper pushes it back.
`Engine.Implements` reads the engine's lists and deliveries as such a queue; every engine step is
one queue step or none (`Engine.Implements.step`), and the queue's sends and deliveries are the
run's own.
-/

namespace Omniqueue

/-- The at-least-once queue the fallback engine implements, in payloads: `pending` in the order of
the main list (the newest send first, taken from the end), the payloads in flight, every payload
taken so far, and the histories of sends and of deliveries, oldest first. -/
structure AtLeastOnceQueue where
  pending : List Bytes
  inflight : List Bytes
  taken : List Bytes
  sent : List Bytes
  delivered : List Bytes
  deriving DecidableEq, Repr

namespace AtLeastOnceQueue

def empty : AtLeastOnceQueue := ⟨[], [], [], [], []⟩

/-- What the queue allows. A send adds at the head; a take moves the payload at the end into
flight, delivering it to a consumer or to none; a settle takes one copy out of flight; a requeue
puts at the end a payload taken before, whether it is still in flight or not. -/
inductive Step : AtLeastOnceQueue → AtLeastOnceQueue → Prop
  | send (q : AtLeastOnceQueue) (p : Bytes) : Step q { q with pending := p :: q.pending, sent := q.sent ++ [p] }
  | deliver (q : AtLeastOnceQueue) {pending : List Bytes} {p : Bytes} (h : q.pending = pending ++ [p]) :
      Step q { q with pending := pending, inflight := p :: q.inflight, taken := p :: q.taken,
                      delivered := q.delivered ++ [p] }
  | lose (q : AtLeastOnceQueue) {pending : List Bytes} {p : Bytes} (h : q.pending = pending ++ [p]) :
      Step q { q with pending := pending, inflight := p :: q.inflight, taken := p :: q.taken }
  | settle (q : AtLeastOnceQueue) {p : Bytes} {rest : List Bytes} (h : q.inflight.Perm (p :: rest)) :
      Step q { q with inflight := rest }
  | requeue (q : AtLeastOnceQueue) {p : Bytes} (h : p ∈ q.taken) :
      Step q { q with pending := q.pending ++ [p] }

end AtLeastOnceQueue

/-- The engine's lists and deliveries read as the queue: the payloads of the main list in order,
those of the processing list up to order, every payload in flight or in a reaper's batch taken
before, and the deliveries' payloads in the order they were made. -/
structure Engine.Implements (e : Engine) (q : AtLeastOnceQueue) : Prop where
  pending : q.pending = e.redis.main.filterMap payloadOf
  inflight : q.inflight.Perm (e.redis.processing.filterMap payloadOf)
  taken : ∀ p ∈ q.inflight, p ∈ q.taken
  keys : ∀ pc ∈ e.reapers, ∀ k ∈ pc.keys, ∀ p, payloadOf k = some p → p ∈ q.taken
  delivered : q.delivered = e.deliveries.map Delivery.payload

theorem Engine.Implements.mem_taken {e : Engine} {q : AtLeastOnceQueue} (hI : e.Implements q) {k p : Bytes}
    (hk : k ∈ e.redis.processing) (hp : payloadOf k = some p) : p ∈ q.taken :=
  hI.taken p (hI.inflight.symm.subset (List.mem_filterMap.2 ⟨k, hk, hp⟩))

/-- Removing an entry from the processing list settles its payload, or changes no payload. -/
theorem AtLeastOnceQueue.settle_or_stutter {q : AtLeastOnceQueue} {l : List Bytes}
    (h : q.inflight.Perm (l.filterMap payloadOf)) (f : Bytes) :
    ∃ inflight, ({ q with inflight } = q ∨ AtLeastOnceQueue.Step q { q with inflight }) ∧
      inflight ⊆ q.inflight ∧ inflight.Perm ((l.erase f).filterMap payloadOf) := by
  by_cases hf : f ∈ l
  · have hl := (perm_cons_erase_bytes hf).filterMap payloadOf
    cases hp : payloadOf f with
    | none =>
      rw [List.filterMap_cons_none hp] at hl
      exact ⟨q.inflight, .inl rfl, List.Subset.refl _, h.trans hl⟩
    | some p =>
      rw [List.filterMap_cons_some hp] at hl
      exact ⟨_, .inr (.settle q (h.trans hl)),
        fun x hx => (h.trans hl).symm.subset (List.mem_cons_of_mem _ hx), List.Perm.refl _⟩
  · rw [List.erase_of_not_mem hf]
    exact ⟨q.inflight, .inl rfl, List.Subset.refl _, h⟩

/-- A step that removes one entry of the processing list, keeps the deliveries' payloads and keeps
every batch key taken. -/
theorem Engine.Implements.erase {e e' : Engine} {q : AtLeastOnceQueue} (hI : e.Implements q) (f : Bytes)
    (hmain : e'.redis.main = e.redis.main) (hproc : e'.redis.processing = e.redis.processing.erase f)
    (hkeys : ∀ pc ∈ e'.reapers, ∀ k ∈ pc.keys, ∀ p, payloadOf k = some p → p ∈ q.taken)
    (hdel : e'.deliveries.map Delivery.payload = e.deliveries.map Delivery.payload) :
    ∃ q', (q' = q ∨ AtLeastOnceQueue.Step q q') ∧ e'.Implements q' ∧ q'.sent = q.sent := by
  obtain ⟨inflight, hs, hsub, hperm⟩ := q.settle_or_stutter hI.inflight f
  exact ⟨_, hs, ⟨by rw [hmain, hI.pending], by rwa [hproc], fun p hp => hI.taken p (hsub hp), hkeys,
    by rw [hdel, hI.delivered]⟩, rfl⟩

section
variable (K : KsuidMs) (cfg : Config)

/-- A receive that moves the frame `f` from the end of the main list into flight is a take of its
payload, delivered exactly when the engine made a delivery; a frame that does not decode changes
no payload. -/
theorem Engine.Implements.receive {e e' : Engine} {q : AtLeastOnceQueue} (hI : e.Implements q) {t : Nat}
    {reply : Reply} (h : e.step K cfg (.receive t reply) = some e') :
    ∃ q', (q' = q ∨ AtLeastOnceQueue.Step q q') ∧ e'.Implements q' ∧ q'.sent = q.sent := by
  rcases Engine.step_receive_cases K cfg h with rfl | ⟨f, main, hm, hd⟩
  · exact ⟨q, .inl rfl, hI, rfl⟩
  cases hf : payloadOf f with
  | none =>
    -- a frame that does not decode makes no delivery
    obtain rfl : e' = { e with redis := ⟨main, f :: e.redis.processing⟩ } := by
      rcases hd with ⟨x, hx, -⟩ | ⟨-, rfl⟩
      · simp [payloadOf_of_ok hx] at hf
      · rfl
    refine ⟨q, .inl rfl, ⟨?_, ?_, hI.taken, hI.keys, hI.delivered⟩, rfl⟩
    · rw [hI.pending, hm, List.filterMap_append, List.filterMap_cons_none hf, List.filterMap_nil, List.append_nil]
    · simpa only [List.filterMap_cons_none hf] using hI.inflight
  | some p =>
    have hq : q.pending = main.filterMap payloadOf ++ [p] := by
      rw [hI.pending, hm, List.filterMap_append, List.filterMap_cons_some hf, List.filterMap_nil]
    have hin : (p :: q.inflight).Perm ((f :: e.redis.processing).filterMap payloadOf) := by
      simpa only [List.filterMap_cons_some hf] using hI.inflight.cons p
    have htaken : ∀ p' ∈ p :: q.inflight, p' ∈ p :: q.taken := by
      rintro p' (_ | ⟨_, hp'⟩)
      exacts [List.mem_cons_self _ _, List.mem_cons_of_mem _ (hI.taken p' hp')]
    have hkeys : ∀ pc ∈ e.reapers, ∀ k ∈ pc.keys, ∀ p', payloadOf k = some p' → p' ∈ p :: q.taken :=
      fun pc hpc k hk p' hp' => List.mem_cons_of_mem _ (hI.keys pc hpc k hk p' hp')
    rcases hd with ⟨x, hx, rfl⟩ | ⟨-, rfl⟩
    · obtain rfl : x.1 = p := by simpa [payloadOf_of_ok hx] using hf
      exact ⟨_, .inr (.deliver q hq), ⟨rfl, hin, htaken, hkeys, by simp [hI.delivered, internalToDelivery]⟩, rfl⟩
    · exact ⟨_, .inr (.lose q hq), ⟨rfl, hin, htaken, hkeys, hI.delivered⟩, rfl⟩

/-- Every engine step is one step of the queue, or none: a tick, a failure or a frame that does
not decode changes no payload; `send_raw` is a send; `BRPOPLPUSH` of a frame that decodes is a
take, delivered or lost; an ack and a reaper's `LREM` of an entry still there are settles; a
reaper's push is a requeue of a payload of its batch. The queue sends what the step sends. -/
theorem Engine.Implements.step {e e' : Engine} {q : AtLeastOnceQueue} {a : Action} (hI : e.Implements q)
    (h : e.step K cfg a = some e') :
    ∃ q', (q' = q ∨ AtLeastOnceQueue.Step q q') ∧ e'.Implements q' ∧ q'.sent = q.sent ++ a.sent.toList := by
  cases a with
  | tick => cases h; exact ⟨q, .inl rfl, ⟨hI.1, hI.2, hI.3, hI.4, hI.5⟩, by simp [Action.sent]⟩
  | sendRaw p rand ok =>
    cases h
    cases ok
    · exact ⟨q, .inl rfl, ⟨hI.1, hI.2, hI.3, hI.4, hI.5⟩, by simp [Action.sent]⟩
    · refine ⟨_, .inr (.send q p), ⟨?_, hI.2, hI.3, hI.4, hI.5⟩, rfl⟩
      simp [sendRaw_main, hI.1, K.sep_not_mem]
  | receive =>
    obtain ⟨q', hs, hI', hsent⟩ := hI.receive K cfg h
    exact ⟨q', hs, hI', by simp [hsent, Action.sent]⟩
  | finalize j c ok =>
    obtain ⟨d, hd, rfl⟩ := Engine.step_finalize_eq_some K cfg h
    have hdel : (e.deliveries.set j { d with acker := ((d.acker.call c).run ok d.acker e.redis.processing).2.1 }).map
        Delivery.payload = e.deliveries.map Delivery.payload := map_set_of_get_eq hd rfl
    simp only [Action.sent, Option.toList, List.append_nil]
    rcases call_processing d.acker c ok e.redis.processing with hl | hl
    · exact ⟨q, .inl rfl, ⟨hI.1, by rw [hl]; exact hI.2, hI.3, hI.4, by rw [hdel, hI.5]⟩, rfl⟩
    · exact hI.erase d.acker.oldPayload rfl hl hI.keys hdel
  | reap i rand ok =>
    -- the reaper's new batch comes from its old one or from the processing list
    have hkeys : ∀ pc' ∈ e'.reapers, ∀ k ∈ pc'.keys, ∀ p, payloadOf k = some p → p ∈ q.taken :=
      fun pc' hpc' k hk => (Engine.step_reap_keys K cfg h pc' hpc' k hk).elim
        (fun ⟨pc, hpc, hk⟩ => hI.keys pc hpc k hk) fun hk _ hp => hI.mem_taken hk hp
    obtain ⟨pc, hpc, rfl⟩ := Engine.step_reap_eq_some K cfg h
    simp only [Action.sent, Option.toList, List.append_nil]
    rcases pc.step_redis cfg.maxReceives (K.text (e.clock - cfg.ackDeadline) rand) (K.text e.clock rand) ok
      e.redis with hr | ⟨lim, key, keys, x, rfl, hx, hr⟩ | ⟨_, key, _, _, _, hr⟩
    · exact ⟨q, .inl rfl, ⟨by rw [hr]; exact hI.1, by rw [hr]; exact hI.2, hI.3, hkeys, hI.5⟩, rfl⟩
    · have htaken := hI.keys _ (List.getElem?_mem hpc) key (List.mem_cons_self _ _) x.1 (payloadOf_of_ok hx)
      refine ⟨_, .inr (.requeue q htaken), ⟨?_, by rw [hr]; exact hI.2, hI.3, hkeys, hI.5⟩, rfl⟩
      rw [hr]
      simp [rpush, hI.1, K.sep_not_mem]
    · exact hI.erase key (by rw [hr]) (by rw [hr]; rfl) hkeys rfl

end

end Omniqueue

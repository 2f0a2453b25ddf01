import Omniqueue.InterleavedEngine

/-!
# What removes entries

Across the main and processing lists, the number of entries carrying a payload goes down only at
an `LREM`: the one of an `ack`, or of a `nack` that has reached the attempt limit and hands off to
`ack`, or the reaper's `LREM` of the key it is reclaiming, which below the limit follows the push
of the same payload back to the main list. At the limit nothing is pushed anywhere: the fallback
engine writes no dead-letter list, so a message at its limit is dropped.
-/

namespace Omniqueue

/-- With `max_receives = 1`, as in `test_deadletter_config_order`: after one receive, a `nack`
hands off to `ack` and removes the message's only entry; left to time out instead, the reaper
drops it at the limit. Either way no entry carries the payload any more, and the engine writes it
nowhere else. -/
theorem nack_at_limit_drops_message :
    (Engine.init ⟨2, 1⟩ 1).exec tallyKsuid ⟨2, 1⟩
        [.sendRaw payloadP 0 true, .receive 0 .arrived, .finalize 0 .nack true] =
      some ⟨⟨[], []⟩, 2, [⟨payloadP, ⟨tallyFrame 2 payloadP, true, 1, 1⟩⟩], [.idle]⟩ ∧
    (Engine.init ⟨2, 1⟩ 1).exec tallyKsuid ⟨2, 1⟩ [.sendRaw payloadP 0 true, .receive 0 .arrived, .tick, .tick,
        .tick, .reap 0 0 true, .reap 0 0 true, .reap 0 0 true, .reap 0 0 true] =
      some ⟨⟨[], []⟩, 5, [⟨payloadP, ⟨tallyFrame 2 payloadP, false, 1, 1⟩⟩], [.scanning (tallyKsuid.text 3 0) []]⟩ :=
  ⟨rfl, rfl⟩

section
variable (K : KsuidMs) (cfg : Config)

/-- A step that lowers the number of entries carrying `p` is a successful `ack`, or `nack` at the
limit, removing its delivery's frame, or a reaper's `LREM` of the key it is reclaiming. -/
theorem carriers_lt_cases {e e' : Engine} {a : Action} (h : e.step K cfg a = some e') {p : Bytes}
    (hlt : Redis.carriers p e'.redis < Redis.carriers p e.redis) :
    (∃ j c d, a = .finalize j c true ∧ e.deliveries[j]? = some d ∧ d.acker.alreadyAckedOrNacked = false ∧
      (c = .ack ∨ d.acker.maxReceives ≤ d.acker.numReceives) ∧ payloadOf d.acker.oldPayload = some p ∧
      e'.redis.processing = e.redis.processing.erase d.acker.oldPayload) ∨
    (∃ i rand lim key keys, a = .reap i rand true ∧ e.reapers[i]? = some (.removing lim key keys) ∧
      payloadOf key = some p ∧ e'.redis.processing = e.redis.processing.erase key) := by
  have drop : ∀ l v, carriers p (l.erase v) < carriers p l → payloadOf v = some p := by
    intro l v hl
    have := carriers_erase p v l
    split at this
    · rename_i hv; exact hv.2
    · omega
  cases a with
  | tick => cases h; exact absurd hlt (lt_irrefl _)
  | sendRaw p' rand ok =>
    cases h
    cases ok
    · exact absurd hlt (lt_irrefl _)
    · simp only [sendRaw_main, Redis.carriers, carriers_cons] at hlt
      split at hlt <;> omega
  | receive =>
    rcases Engine.step_receive_cases K cfg h with rfl | ⟨f, main, hm, ⟨_, _, rfl⟩ | ⟨_, rfl⟩⟩
    · exact absurd hlt (lt_irrefl _)
    all_goals simp only [Redis.carriers, hm, carriers_append, carriers_cons, carriers_nil] at hlt; omega
  | finalize j c ok =>
    obtain ⟨d, hd, rfl⟩ := Engine.step_finalize_eq_some K cfg h
    by_cases hl : ((d.acker.call c).run ok d.acker e.redis.processing).2.2 = e.redis.processing
    · simp [Redis.carriers, hl] at hlt
    · obtain ⟨rfl, hfresh, hc, herase⟩ := call_erases d.acker c ok e.redis.processing hl
      simp only [Redis.carriers, herase] at hlt
      exact .inl ⟨j, c, d, rfl, hd, hfresh, hc, drop e.redis.processing _ (by omega), herase⟩
  | reap i rand ok =>
    obtain ⟨pc, hpc, rfl⟩ := Engine.step_reap_eq_some K cfg h
    rcases pc.step_redis cfg.maxReceives (K.text (e.clock - cfg.ackDeadline) rand) (K.text e.clock rand) ok
      e.redis with hr | ⟨_, _, _, _, _, _, hr⟩ | ⟨lim, key, keys, rfl, rfl, hr⟩ <;>
      simp only [hr] at hlt ⊢
    · exact absurd hlt (lt_irrefl _)
    · simp only [Redis.carriers, rpush, carriers_append, carriers_cons, carriers_nil] at hlt
      split at hlt <;> omega
    · simp only [Redis.carriers, lrem] at hlt
      exact .inr ⟨i, rand, lim, key, keys, rfl, hpc, drop e.redis.processing _ (by omega), rfl⟩

/-- A reap step that leaves reaper `i` about to remove `key`, below the attempt limit, has pushed
one more entry carrying the key's payload to the main list. -/
theorem carriers_main_of_removing {e e' : Engine} {i rand : Nat} {ok : Bool}
    (h : e.step K cfg (.reap i rand ok) = some e') {lim key : Bytes} {keys : List Bytes}
    (hi : e'.reapers[i]? = some (.removing lim key keys)) {x : Bytes × Nat}
    (hx : internalFromList key = .ok x) (hlt : x.2 < cfg.maxReceives) :
    carriers x.1 e'.redis.main = carriers x.1 e.redis.main + 1 := by
  obtain ⟨pc, hpc, rfl⟩ := Engine.step_reap_eq_some K cfg h
  rw [List.getElem?_set_self (List.getElem?_eq_some_iff.1 hpc).1, Option.some.injEq] at hi
  obtain ⟨-, -, x', hx', hpush⟩ := ReaperPc.step_eq_removing hi
  rw [hx, Except.ok.injEq] at hx'
  subst hx'
  simp [hpush hlt, rpush, K.sep_not_mem]

/-- Across the two lists, the number of entries carrying `p` goes down at a step only when an
`ack`, or a `nack` with `num_receives ≥ max_receives`, removes its own delivery's frame, or when a
reaper removes the key it is reclaiming; and a reaper step that decides to reclaim a key whose
attempt count is below `max_receives` pushes one entry with the key's payload back to main. -/
theorem carriers_fall_only_by_ack_or_reclaim (e e' : Engine) (a : Action) (h : e.step K cfg a = some e')
    (p : Bytes) :
    (Redis.carriers p e'.redis < Redis.carriers p e.redis →
      (∃ j c d, a = .finalize j c true ∧ e.deliveries[j]? = some d ∧ d.acker.alreadyAckedOrNacked = false ∧
        (c = .ack ∨ d.acker.maxReceives ≤ d.acker.numReceives) ∧ payloadOf d.acker.oldPayload = some p ∧
        e'.redis.processing = e.redis.processing.erase d.acker.oldPayload) ∨
      (∃ i rand lim key keys, a = .reap i rand true ∧ e.reapers[i]? = some (.removing lim key keys) ∧
        payloadOf key = some p ∧ e'.redis.processing = e.redis.processing.erase key)) ∧
    (∀ i rand ok lim key keys x, a = .reap i rand ok → e'.reapers[i]? = some (.removing lim key keys) →
      internalFromList key = .ok x → x.2 < cfg.maxReceives →
      carriers x.1 e'.redis.main = carriers x.1 e.redis.main + 1) :=
  ⟨carriers_lt_cases K cfg h, fun _ _ _ _ _ _ _ ha hi hx hlt => by
    subst ha; exact carriers_main_of_removing K cfg h hi hx hlt⟩

end

end Omniqueue

import Omniqueue.InterleavedEngine

/-!
# Attempt counts and the bound on redeliveries

`send_raw` stores attempts 0 and a receive reads the stored count plus one. The reaper pushes an
overdue frame back storing the count it read, so one more than before, or drops it once that count
has reached `max_receives`; a `nack` at that count hands off to `ack`. Hence every frame in the
lists has been received fewer than `max_receives` times (`attempts_below_max_receives`), and with
one reaper whose commands succeed no payload is delivered more than `max_receives` times per send
(`deliveries_within_max_receives`).

The bound counts, for a payload `p`, its deliveries, its entries in the main list, and the
receives each entry still allows. A receive turns one entry of the main list into one delivery;
the reaper's push gives back the receives of the key it reclaims, and its `LREM` of that key takes
them away again. An ack may remove a key from the processing list after the reaper has read it
into its batch; the key's receives then stay counted, under the frames acked since (`acked`).
-/

namespace Omniqueue

/-! ## The count stays below the limit -/

/-- The frame decodes with at most `m` receives, the one that reads it included. -/
def WithinLimit (m : Nat) (f : Bytes) : Prop := ∃ x, internalFromList f = .ok x ∧ x.2 ≤ m

/-- Every frame in the lists and in a reaper's batch reads at most `m` receives, and every delivery
between 1 and `m`. -/
structure CountsWithin (m : Nat) (e : Engine) : Prop where
  main : ∀ f ∈ e.redis.main, WithinLimit m f
  processing : ∀ f ∈ e.redis.processing, WithinLimit m f
  keys : ∀ pc ∈ e.reapers, ∀ k ∈ pc.keys, WithinLimit m k
  deliveries : ∀ d ∈ e.deliveries, 0 < d.acker.numReceives ∧ d.acker.numReceives ≤ m

theorem countsWithin_init (cfg : Config) (n : Nat) : CountsWithin cfg.maxReceives (Engine.init cfg n) :=
  ⟨by simp [Engine.init, Redis.empty], by simp [Engine.init, Redis.empty],
    fun pc hpc => by simp [(List.mem_replicate.mp hpc).2, ReaperPc.keys], by simp [Engine.init]⟩

section
variable (K : KsuidMs) (cfg : Config)

theorem CountsWithin.receive {e e' : Engine} {t : Nat} {reply : Reply} (hI : CountsWithin cfg.maxReceives e)
    (h : e.step K cfg (.receive t reply) = some e') : CountsWithin cfg.maxReceives e' := by
  rcases Engine.step_receive_cases K cfg h with rfl | ⟨f, main, hm, hd⟩
  · exact hI
  have hf : WithinLimit cfg.maxReceives f := hI.main f (by simp [hm])
  have hmain : ∀ f' ∈ main, WithinLimit cfg.maxReceives f' := fun f' hf' => hI.main f' (by simp [hm, hf'])
  have hproc : ∀ f' ∈ f :: e.redis.processing, WithinLimit cfg.maxReceives f' :=
    List.forall_mem_cons.2 ⟨hf, hI.processing⟩
  rcases hd with ⟨x, hx, rfl⟩ | ⟨-, rfl⟩
  · refine ⟨hmain, hproc, hI.keys, ?_⟩
    simp only [List.mem_append, List.mem_singleton]
    rintro d (hd | rfl)
    · exact hI.deliveries d hd
    · obtain ⟨x', hx', hle⟩ := hf
      cases hx.symm.trans hx'
      exact ⟨internalFromList_pos hx, hle⟩
  · exact ⟨hmain, hproc, hI.keys, hI.deliveries⟩

theorem CountsWithin.reap {e e' : Engine} {i rand : Nat} {ok : Bool} (hI : CountsWithin cfg.maxReceives e)
    (h : e.step K cfg (.reap i rand ok) = some e') : CountsWithin cfg.maxReceives e' := by
  have hkeys := Engine.step_reap_keys K cfg h
  obtain ⟨pc, -, rfl⟩ := Engine.step_reap_eq_some K cfg h
  refine ⟨?_, ?_, fun pc' hpc' k hk => (hkeys pc' hpc' k hk).elim (fun ⟨pc, hpc, hk⟩ => hI.keys pc hpc k hk)
    (hI.processing k), hI.deliveries⟩
  · rcases pc.step_cases cfg.maxReceives (K.text (e.clock - cfg.ackDeadline) rand) (K.text e.clock rand) ok
      e.redis with hs | ⟨-, -, hs⟩ | ⟨_, -, hs⟩ | ⟨_, _, _, -, hs⟩ |
        ⟨lim, key, keys, x, rfl, -, hx, ⟨hs, -⟩ | ⟨hs, hlt⟩⟩ | ⟨_, _, _, -, -, hs⟩ <;> rw [hs] <;>
      try exact hI.main
    -- the push stores the count it read, below the limit
    simp only [rpush, List.mem_append, List.mem_singleton]
    rintro f (hf | rfl)
    exacts [hI.main f hf, ⟨_, internalFromList_internalToListPayload (K.sep_not_mem _ _) x, hlt⟩]
  · rcases pc.step_redis cfg.maxReceives (K.text (e.clock - cfg.ackDeadline) rand) (K.text e.clock rand) ok
      e.redis with hr | ⟨_, _, _, _, _, _, hr⟩ | ⟨_, key, _, _, _, hr⟩ <;> rw [hr]
    · exact hI.processing
    · exact hI.processing
    · exact fun f hf => hI.processing f (List.erase_subset key _ hf)

/-- Every step keeps every count within `max_receives`, when that is positive. -/
theorem CountsWithin.step (hm : 0 < cfg.maxReceives) {e e' : Engine} {a : Action}
    (hI : CountsWithin cfg.maxReceives e) (h : e.step K cfg a = some e') : CountsWithin cfg.maxReceives e' := by
  cases a with
  | tick => cases h; exact ⟨hI.1, hI.2, hI.3, hI.4⟩
  | sendRaw p rand ok =>
    cases h
    cases ok
    · exact ⟨hI.1, hI.2, hI.3, hI.4⟩
    · refine ⟨?_, hI.processing, hI.keys, hI.deliveries⟩
      simp only [sendRaw_main, List.mem_cons, forall_eq_or_imp]
      exact ⟨⟨_, internalFromList_internalToListPayload (K.sep_not_mem _ _) _, hm⟩, hI.main⟩
  | receive => exact hI.receive K cfg h
  | finalize j c ok =>
    obtain ⟨d, hd, rfl⟩ := Engine.step_finalize_eq_some K cfg h
    refine ⟨hI.main, fun f hf => hI.processing f ?_, hI.keys, fun d' hd' => ?_⟩
    · rcases call_processing d.acker c ok e.redis.processing with hl | hl <;> rw [hl] at hf
      exacts [hf, List.erase_subset _ _ hf]
    · rcases List.mem_or_eq_of_mem_set hd' with hd' | rfl
      · exact hI.deliveries d' hd'
      · rcases call_acker d.acker c ok e.redis.processing with ha | ha <;> rw [ha] <;>
          exact hI.deliveries d (List.getElem?_mem hd)
  | reap => exact hI.reap K cfg h

/-- The stored attempt count stays below `max_receives`. From empty lists, with `max_receives`
positive, in every run with any number of engine instances and whatever fails, every entry of the
two lists decodes with a stored count `c < max_receives` (read as `c + 1` receives), and every
delivery has `1 ≤ num_receives ≤ max_receives`. -/
theorem attempts_below_max_receives (hm : 0 < cfg.maxReceives) (n : Nat) (acts : List Action) (e : Engine)
    (h : (Engine.init cfg n).exec K cfg acts = some e) :
    (∀ f ∈ e.redis.main ++ e.redis.processing, ∃ q c, internalFromList f = .ok (q, c + 1) ∧ c < cfg.maxReceives) ∧
    ∀ d ∈ e.deliveries, 0 < d.acker.numReceives ∧ d.acker.numReceives ≤ cfg.maxReceives := by
  have hI := Engine.exec_induction K cfg (fun (_ : Unit) e => CountsWithin cfg.maxReceives e) (fun _ _ => ())
    (fun _ => True) (fun _ _ _ _ _ hI h => hI.step K cfg hm h) acts () _ e (fun _ _ => trivial)
    (countsWithin_init cfg n) h
  refine ⟨fun f hf => ?_, hI.deliveries⟩
  obtain ⟨⟨q, c⟩, hx, hle⟩ : WithinLimit cfg.maxReceives f := (List.mem_append.mp hf).elim (hI.main f) (hI.processing f)
  obtain ⟨c, rfl⟩ := Nat.exists_eq_add_one.2 (internalFromList_pos hx)
  exact ⟨q, c, hx, hle⟩

end

/-- With `max_receives = 2`: a message nacked on its first delivery is reclaimed with stored count 1
and delivered again with `num_receives = 2`. -/
theorem attempts_below_max_receives_at_limit :
    let acts : List Action := [.sendRaw payloadP 0 true, .receive 0 .arrived, .finalize 0 .nack true,
      .tick, .tick, .tick, .reap 0 0 true, .reap 0 0 true, .reap 0 0 true, .reap 0 0 true, .receive 0 .arrived]
    let e : Engine := ⟨⟨[], [internalToListPayload (tallyKsuid.text 5 0) (payloadP, 1)]⟩, 5,
      [⟨payloadP, ⟨tallyFrame 2 payloadP, true, 2, 1⟩⟩,
        ⟨payloadP, ⟨internalToListPayload (tallyKsuid.text 5 0) (payloadP, 1), false, 2, 2⟩⟩],
      [.scanning (tallyKsuid.text 3 0) []]⟩
    0 < (⟨2, 2⟩ : Config).maxReceives ∧ (Engine.init ⟨2, 2⟩ 1).exec tallyKsuid ⟨2, 2⟩ acts = some e ∧
      ((∀ f ∈ e.redis.main ++ e.redis.processing, ∃ q c, internalFromList f = .ok (q, c + 1) ∧
          c < (⟨2, 2⟩ : Config).maxReceives) ∧
        ∀ d ∈ e.deliveries, 0 < d.acker.numReceives ∧ d.acker.numReceives ≤ (⟨2, 2⟩ : Config).maxReceives) := by
  intro acts e
  have h : (Engine.init ⟨2, 2⟩ 1).exec tallyKsuid ⟨2, 2⟩ acts = some e := by decide
  exact ⟨by decide, h, attempts_below_max_receives tallyKsuid ⟨2, 2⟩ (by decide) 1 acts e h⟩

/-! ## The receives each entry still allows -/

section
variable (m : Nat) (p : Bytes)

/-- The receives a frame of `p` still allows once it sits in the processing list: `m` less the
receives it has had, the one that claimed it included. -/
def budget (f : Bytes) : Nat :=
  match internalFromList f with
  | .ok x => if x.1 = p then m - x.2 else 0
  | .error _ => 0

/-- The receives the entries of `l` still allow, together. -/
def budgetSum : List Bytes → Nat
  | [] => 0
  | f :: l => budget m p f + budgetSum l

@[simp] theorem budgetSum_nil : budgetSum m p [] = 0 := rfl

@[simp] theorem budgetSum_cons (f : Bytes) (l : List Bytes) :
    budgetSum m p (f :: l) = budget m p f + budgetSum m p l := rfl

@[simp] theorem budgetSum_append (l l' : List Bytes) :
    budgetSum m p (l ++ l') = budgetSum m p l + budgetSum m p l' := by
  induction l with
  | nil => simp
  | cons f l ih => simp [ih, Nat.add_assoc]

theorem budgetSum_erase {v : Bytes} : ∀ {l : List Bytes}, v ∈ l →
    budgetSum m p l = budget m p v + budgetSum m p (l.erase v)
  | f :: l, h => by
    by_cases hfv : f = v
    · subst hfv
      rw [List.erase_cons_head]
      rfl
    · have ih := budgetSum_erase (List.mem_of_ne_of_mem (Ne.symm hfv) h)
      rw [List.erase_cons_tail (by simpa using hfv), budgetSum_cons, budgetSum_cons, ih]
      omega

theorem budget_of_ok {f : Bytes} {x : Bytes × Nat} (h : internalFromList f = .ok x) :
    budget m p f = if x.1 = p then m - x.2 else 0 := by
  simp [budget, h]

/-- What a reaper about to remove `key` owes: the receives of the frame it pushed back for it. -/
def ReaperPc.owed : ReaperPc → Nat
  | .removing _ key _ => budget m p key
  | _ => 0

/-- The invariant of the bound, with the engine's one reaper `pc` and the frames `acked` that acks
removed from the processing list. The reaper's batch keys are entries of the processing list or of
`acked`; the deliveries of `p`, its entries in the main list and the receives every entry still
allows are at most `m` per send of `p`, plus what the reaper owes. -/
structure BoundInv (sent : List Bytes) (e : Engine) (pc : ReaperPc) (acked : List Bytes) : Prop where
  reapers : e.reapers = [pc]
  keys : pc.keys.Subperm (e.redis.processing ++ acked)
  bound : (e.deliveries.map Delivery.payload).count p + carriers p e.redis.main + budgetSum m p e.redis.main +
      budgetSum m p e.redis.processing + budgetSum m p acked ≤ m * sent.count p + pc.owed m p

end

/-- A step in which a reaper command, if the step is one, succeeds. -/
def Engine.ReaperSucceeds (_e : Engine) : Action → Engine → Prop
  | .reap _ _ ok, _ => ok = true
  | _, _ => True

section
variable (K : KsuidMs) (cfg : Config) (p : Bytes) {sent : List Bytes} {e e' : Engine} {pc : ReaperPc}
  {acked : List Bytes}

theorem BoundInv.sendRaw (hm : 0 < cfg.maxReceives) (hI : BoundInv cfg.maxReceives p sent e pc acked)
    {q : Bytes} {rand : Nat} {ok : Bool} (h : e.step K cfg (.sendRaw q rand ok) = some e') :
    BoundInv cfg.maxReceives p (sent ++ (Action.sendRaw q rand ok).sent.toList) e' pc acked := by
  cases h
  cases ok
  · simpa [Action.sent] using hI
  refine ⟨hI.reapers, hI.keys, ?_⟩
  have := hI.bound
  have hb := budget_of_ok cfg.maxReceives p (internalFromList_internalToListPayload (K.sep_not_mem e.clock rand) (q, 0))
  simp only [sendRaw_main, Action.sent, Option.toList, List.count_append, List.count_cons, List.count_nil,
    beq_iff_eq, carriers_cons, budgetSum_cons, payloadOf_internalToListPayload (K.sep_not_mem _ _),
    Option.some.injEq, Nat.mul_add, hb] at this ⊢
  split_ifs at * <;> omega

/-- A receive turns an entry of the main list into a delivery, or loses it. -/
theorem BoundInv.receive (hI : BoundInv cfg.maxReceives p sent e pc acked) {t : Nat} {reply : Reply}
    (h : e.step K cfg (.receive t reply) = some e') : BoundInv cfg.maxReceives p sent e' pc acked := by
  rcases Engine.step_receive_cases K cfg h with rfl | ⟨f, main, hm, hd⟩
  · exact hI
  have hkeys : pc.keys.Subperm ((f :: e.redis.processing) ++ acked) :=
    hI.keys.trans (List.sublist_cons_self f _).subperm
  have hb := hI.bound
  rw [hm, carriers_append, budgetSum_append] at hb
  rcases hd with ⟨x, hx, rfl⟩ | ⟨-, rfl⟩
  · refine ⟨hI.reapers, hkeys, ?_⟩
    simp only [List.map_append, List.map_singleton, List.count_append, List.count_cons, List.count_nil,
      beq_iff_eq, carriers_cons, carriers_nil, budgetSum_cons, budgetSum_nil, payloadOf_of_ok hx,
      Option.some.injEq, internalToDelivery] at hb ⊢
    split_ifs at * <;> omega
  · refine ⟨hI.reapers, hkeys, ?_⟩
    simp only [carriers_cons, carriers_nil, budgetSum_cons, budgetSum_nil] at hb ⊢
    omega

/-- An ack's `LREM` moves the removed frame from the processing list to `acked`. -/
theorem BoundInv.finalize (hI : BoundInv cfg.maxReceives p sent e pc acked) {j : Nat} {c : AckCall} {ok : Bool}
    (h : e.step K cfg (.finalize j c ok) = some e') : ∃ acked', BoundInv cfg.maxReceives p sent e' pc acked' := by
  obtain ⟨d, hd, rfl⟩ := Engine.step_finalize_eq_some K cfg h
  have hdel : (e.deliveries.set j { d with acker := ((d.acker.call c).run ok d.acker e.redis.processing).2.1 }).map
      Delivery.payload = e.deliveries.map Delivery.payload := map_set_of_get_eq hd rfl
  have hb := hI.bound
  rcases call_processing d.acker c ok e.redis.processing with hl | hl
  · exact ⟨acked, hI.reapers, by simpa only [hl] using hI.keys, by simpa only [hl, hdel] using hb⟩
  by_cases hv : d.acker.oldPayload ∈ e.redis.processing
  · refine ⟨d.acker.oldPayload :: acked, hI.reapers, ?_, ?_⟩
    · refine hI.keys.trans (List.Perm.subperm ?_)
      show (e.redis.processing ++ acked).Perm (((d.acker.call c).run ok d.acker e.redis.processing).2.2 ++ _)
      rw [hl]
      exact ((perm_cons_erase_bytes hv).append_right acked).trans List.perm_middle.symm
    · dsimp only
      rw [hdel, hl, budgetSum_cons]
      rw [budgetSum_erase cfg.maxReceives p hv] at hb
      omega
  · rw [List.erase_of_not_mem hv] at hl
    exact ⟨acked, hI.reapers, by simpa only [hl] using hI.keys, by simpa only [hl, hdel] using hb⟩

/-- The reaper's `LREM` of the key it reclaimed takes away the receives its push gave back: from
the processing list if the key is still there, else from `acked`. -/
theorem BoundInv.lrem (hI : BoundInv cfg.maxReceives p sent e pc acked) {lim key : Bytes} {keys : List Bytes}
    (hpc : pc = .removing lim key keys) :
    ∃ acked', BoundInv cfg.maxReceives p sent
      { e with redis := { e.redis with processing := lrem e.redis.processing key },
               reapers := [.scanning lim keys] } (.scanning lim keys) acked' := by
  subst hpc
  have hkeys : (key :: keys).Subperm (e.redis.processing ++ acked) := hI.keys
  have hb := hI.bound
  simp only [ReaperPc.owed] at hb
  by_cases hk : key ∈ e.redis.processing
  · refine ⟨acked, rfl, (List.subperm_cons key).1 (hkeys.trans ?_), ?_⟩
    · exact ((perm_cons_erase_bytes hk).append_right acked).subperm
    · rw [budgetSum_erase cfg.maxReceives p hk] at hb
      simp only [lrem, ReaperPc.owed]
      omega
  · have ha : key ∈ acked := (List.mem_append.1 (hkeys.subset (List.mem_cons_self _ _))).resolve_left hk
    refine ⟨acked.erase key, rfl, (List.subperm_cons key).1 (hkeys.trans ?_), ?_⟩
    · simp only [lrem, List.erase_of_not_mem hk]
      exact ((perm_cons_erase_bytes ha).append_left _).trans List.perm_middle |>.subperm
    · rw [budgetSum_erase cfg.maxReceives p ha] at hb
      simp only [lrem, List.erase_of_not_mem hk, ReaperPc.owed]
      omega

/-- Every step of the engine's one reaper, its commands succeeding, keeps the invariant. -/
theorem BoundInv.reap (hI : BoundInv cfg.maxReceives p sent e pc acked) {i rand : Nat}
    (h : e.step K cfg (.reap i rand true) = some e') : ∃ pc' acked', BoundInv cfg.maxReceives p sent e' pc' acked' := by
  obtain ⟨pc₀, hpc₀, rfl⟩ := Engine.step_reap_eq_some K cfg h
  rw [hI.reapers] at hpc₀ ⊢
  obtain ⟨rfl, rfl⟩ : i = 0 ∧ pc = pc₀ := by
    cases i with
    | zero => exact ⟨rfl, by simpa using hpc₀⟩
    | succ i => simp at hpc₀
  have hb := hI.bound
  -- a step that changes neither list nor deliveries, to a batch drawn from the old one or from
  -- the processing list, owing no more than before
  have quiet : ∀ pc' : ReaperPc, pc'.keys.Subperm (e.redis.processing ++ acked) → pc'.owed cfg.maxReceives p = 0 →
      pc.owed cfg.maxReceives p = 0 →
      BoundInv cfg.maxReceives p sent { e with reapers := [pc'] } pc' acked := fun pc' hk ho ho' =>
    ⟨rfl, hk, by simp only [ho, ho'] at hb ⊢; exact hb⟩
  rcases pc.step_cases cfg.maxReceives (K.text (e.clock - cfg.ackDeadline) rand) (K.text e.clock rand) true
      e.redis with hs | ⟨rfl, -, hs⟩ | ⟨lim, rfl, hs⟩ | ⟨lim, key, keys, rfl, hs⟩ |
      ⟨lim, key, keys, x, rfl, -, hx, ⟨hs, hge⟩ | ⟨hs, hlt⟩⟩ | ⟨lim, key, keys, rfl, -, hs⟩ <;>
    simp only [hs, List.set_cons_zero]
  -- a reaper about to remove a key moves on to its `LREM` when the command succeeds, never to idle
  · refine ⟨_, acked, quiet .idle (by simp [ReaperPc.keys]) rfl ?_⟩
    cases pc <;> first | rfl | simp [ReaperPc.step] at hs
  · exact ⟨_, acked, quiet _ (by simp [ReaperPc.keys]) rfl rfl⟩
  · refine ⟨_, acked, quiet _ ?_ rfl rfl⟩
    exact ((List.take_sublist _ _).trans (List.drop_sublist _ _)).subperm.trans
      (List.sublist_append_left _ _).subperm
  · exact ⟨_, acked, quiet _ ((List.sublist_cons_self key keys).subperm.trans hI.keys) rfl rfl⟩
  -- at the limit the key owes nothing: it has no receive left
  · refine ⟨_, acked, quiet _ hI.keys ?_ rfl⟩
    simp only [ReaperPc.owed, budget_of_ok _ _ hx]
    split_ifs <;> omega
  -- the push gives back the receives of the key it reclaims
  · refine ⟨_, acked, rfl, hI.keys, ?_⟩
    have hg := budget_of_ok cfg.maxReceives p (internalFromList_internalToListPayload (K.sep_not_mem e.clock rand) x)
    simp only [ReaperPc.owed, budget_of_ok _ _ hx, rpush, carriers_append, carriers_cons, carriers_nil,
      budgetSum_append, budgetSum_cons, budgetSum_nil, payloadOf_internalToListPayload (K.sep_not_mem _ _),
      Option.some.injEq, hg] at hb ⊢
    split_ifs at * <;> omega
  · obtain ⟨acked', hI'⟩ := hI.lrem cfg p rfl
    exact ⟨_, acked', hI'⟩

/-- Every step whose reaper command succeeds keeps the invariant, adding what it sends. -/
theorem BoundInv.step (hm : 0 < cfg.maxReceives) (hI : BoundInv cfg.maxReceives p sent e pc acked) {a : Action}
    (h : e.step K cfg a = some e') (hok : Engine.ReaperSucceeds e a e') :
    ∃ pc' acked', BoundInv cfg.maxReceives p (sent ++ a.sent.toList) e' pc' acked' := by
  cases a with
  | tick => cases h; exact ⟨pc, acked, hI.1, hI.2, by simpa [Action.sent] using hI.3⟩
  | sendRaw => exact ⟨pc, acked, hI.sendRaw K cfg p hm h⟩
  | receive => exact ⟨pc, acked, by simpa [Action.sent] using hI.receive K cfg p h⟩
  | finalize =>
    obtain ⟨acked', hI'⟩ := hI.finalize K cfg p h
    exact ⟨pc, acked', by simpa [Action.sent] using hI'⟩
  | reap i rand ok =>
    obtain rfl : ok = true := hok
    simpa [Action.sent] using hI.reap K cfg p h

/-- Redelivery is bounded by `max_receives`. With one engine instance, a positive `max_receives`
and every reaper command succeeding (sends, receives and acks may fail, and a receive's reply may
be lost), from empty lists, however timeouts, nacks and acks interleave with the reaper, each
payload is delivered at most `max_receives` times per `send_raw` of it: a message sent once is
returned by `receive` at most `max_receives` times. -/
theorem deliveries_within_max_receives (hm : 0 < cfg.maxReceives) (acts : List Action) (e : Engine)
    (h : Engine.Run K cfg Engine.ReaperSucceeds (Engine.init cfg 1) acts e) :
    (e.deliveries.map Delivery.payload).count p ≤ cfg.maxReceives * (sentPayloads acts).count p := by
  have hI : ∃ pc acked, BoundInv cfg.maxReceives p (acts.foldl (fun s a => s ++ a.sent.toList) []) e pc acked :=
    h.induction K cfg (fun s e => ∃ pc acked, BoundInv cfg.maxReceives p s e pc acked) _
      (fun _ _ _ _ hs hG ⟨_, _, hI⟩ => hI.step K cfg p hm hs hG)
      ⟨.idle, [], rfl, by simp [ReaperPc.keys], by simp [Engine.init, Redis.empty, ReaperPc.owed]⟩
  rw [foldl_append_sent, List.nil_append] at hI
  obtain ⟨pc, acked, hI⟩ := hI
  -- what the reaper owes is held by its key, an entry of the processing list or of `acked`
  have howed : pc.owed cfg.maxReceives p ≤ budgetSum cfg.maxReceives p (e.redis.processing ++ acked) := by
    cases pc with
    | removing lim key keys =>
      rw [budgetSum_erase cfg.maxReceives p (hI.keys.subset (List.mem_cons_self key keys))]
      exact Nat.le_add_right _ _
    | _ => exact Nat.zero_le _
  have := hI.bound
  rw [budgetSum_append] at howed
  omega

end

/-- With `max_receives = 2`: a message nacked, reclaimed with one receive counted, received again
and nacked at the limit, which hands off to `ack`. It was delivered twice. -/
theorem deliveries_within_max_receives_of_nacks :
    let acts : List Action := [.sendRaw payloadP 0 true, .receive 0 .arrived, .finalize 0 .nack true,
      .tick, .tick, .tick, .reap 0 0 true, .reap 0 0 true, .reap 0 0 true, .reap 0 0 true, .receive 0 .arrived,
      .finalize 1 .nack true]
    let e : Engine := ⟨⟨[], []⟩, 5,
      [⟨payloadP, ⟨tallyFrame 2 payloadP, true, 2, 1⟩⟩,
        ⟨payloadP, ⟨internalToListPayload (tallyKsuid.text 5 0) (payloadP, 1), true, 2, 2⟩⟩],
      [.scanning (tallyKsuid.text 3 0) []]⟩
    0 < (⟨2, 2⟩ : Config).maxReceives ∧
      Engine.Run tallyKsuid ⟨2, 2⟩ Engine.ReaperSucceeds (Engine.init ⟨2, 2⟩ 1) acts e ∧
      (e.deliveries.map Delivery.payload).count payloadP ≤
        (⟨2, 2⟩ : Config).maxReceives * (sentPayloads acts).count payloadP := by
  intro acts e
  have hrun : Engine.Run tallyKsuid ⟨2, 2⟩ Engine.ReaperSucceeds (Engine.init ⟨2, 2⟩ 1) acts e := by
    repeat (first | exact .nil _ | refine .cons rfl (by trivial) ?_)
  exact ⟨by decide, hrun, deliveries_within_max_receives tallyKsuid ⟨2, 2⟩ payloadP (by decide) acts e hrun⟩

end Omniqueue

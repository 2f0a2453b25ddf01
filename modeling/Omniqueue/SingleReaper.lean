import Mathlib.Data.List.Nodup
import Omniqueue.InterleavedEngine

/-!
# Reapers and duplicates

Two reaper iterations that both read the same overdue frame into their batches both push it back:
the message is then carried by two entries. With a single reaper, every command succeeding and
every written frame new, no message is ever carried by more entries than it was sent times, except
while the reaper is between reclaiming a frame of it and the `LREM` of that frame.

The proof counts, for each payload, the entries in the two lists plus the *credit* of the batch:
its keys that the processing list no longer holds, because an ack removed them after the reaper
read the batch. Such a key may still be pushed back, and the ack's removal pays for that push.
-/

namespace Omniqueue

/-- The success flag of an action, for a receive that its reply arrived; a tick always succeeds. -/
def Action.succeeds : Action → Bool
  | .tick => true
  | .receive _ reply => reply == .arrived
  | .sendRaw _ _ ok | .finalize _ _ ok | .reap _ _ ok => ok

/-- Every frame a step adds to the main list is new: in neither list and in no reaper's batch. -/
def Engine.WritesFresh (e e' : Engine) : Prop :=
  ∀ v ∈ e'.redis.main, e.redis.main.count v < e'.redis.main.count v →
    v ∉ e.redis.main ∧ v ∉ e.redis.processing ∧ ∀ pc ∈ e.reapers, v ∉ pc.keys

instance (e e' : Engine) : Decidable (e.WritesFresh e') := by
  unfold Engine.WritesFresh; infer_instance

/-- A step whose command succeeds and that writes only new frames. -/
def Engine.FreshStep (e : Engine) (a : Action) (e' : Engine) : Prop := a.succeeds = true ∧ e.WritesFresh e'

/-- Two engine instances, every command succeeding and every frame written new: both reapers read
the overdue frame into their batches before either removes it, both push it back, and once both
have done their `LREM` two entries carry the message sent once. -/
theorem two_reapers_duplicate_message :
    Engine.Run tallyKsuid ⟨2, 5⟩ Engine.FreshStep (Engine.init ⟨2, 5⟩ 2)
      [.sendRaw payloadP 0 true, .receive 0 .arrived, .tick, .tick, .tick, .reap 0 0 true, .reap 0 0 true,
        .reap 1 1 true, .reap 1 1 true, .reap 0 0 true, .reap 0 0 true, .reap 1 1 true, .reap 1 1 true]
      ⟨⟨[internalToListPayload (tallyKsuid.text 5 0) (payloadP, 1),
          internalToListPayload (tallyKsuid.text 5 1) (payloadP, 1)], []⟩, 5,
        [⟨payloadP, ⟨tallyFrame 2 payloadP, false, 5, 1⟩⟩],
        [.scanning (tallyKsuid.text 3 0) [], .scanning (tallyKsuid.text 3 1) []]⟩ ∧
    carriers payloadP [internalToListPayload (tallyKsuid.text 5 0) (payloadP, 1),
      internalToListPayload (tallyKsuid.text 5 1) (payloadP, 1)] = 2 ∧
    (sentPayloads [.sendRaw payloadP 0 true, .receive 0 .arrived, .tick, .tick, .tick, .reap 0 0 true,
      .reap 0 0 true, .reap 1 1 true, .reap 1 1 true, .reap 0 0 true, .reap 0 0 true, .reap 1 1 true,
      .reap 1 1 true]).count payloadP = 1 := by
  refine ⟨?_, by decide, by decide⟩
  repeat (first | exact .nil _ | refine .cons rfl ⟨rfl, by decide⟩ ?_)

/-- Batch keys the processing list `l` no longer holds, counted for payload `p`. -/
def credit (p : Bytes) (keys l : List Bytes) : Nat := keys.countP fun k => k ∉ l ∧ payloadOf k = some p

/-- A reaper about to remove a key of payload `p` may have pushed one entry of `p` already. -/
def ReaperPc.owes (p : Bytes) : ReaperPc → Nat
  | .removing _ key _ => if payloadOf key = some p then 1 else 0
  | _ => 0

/-! ## Credit -/

section
variable (p : Bytes)

@[simp] theorem credit_nil (l : List Bytes) : credit p [] l = 0 := rfl

theorem credit_cons (k : Bytes) (keys l : List Bytes) :
    credit p (k :: keys) l = credit p keys l + if k ∉ l ∧ payloadOf k = some p then 1 else 0 := by
  simp [credit, List.countP_cons]

theorem credit_of_subset {keys l : List Bytes} (h : keys ⊆ l) : credit p keys l = 0 :=
  List.countP_eq_zero.2 fun k hk => by simp [h hk]

theorem credit_congr {keys l l' : List Bytes} (h : ∀ k ∈ keys, k ∈ l ↔ k ∈ l') :
    credit p keys l = credit p keys l' :=
  List.countP_congr fun k hk => by simp [h k hk]

theorem credit_erase_of_not_mem {l keys : List Bytes} (hl : l.Nodup) {v : Bytes} (hv : v ∉ keys) :
    credit p keys (l.erase v) = credit p keys l :=
  credit_congr p fun k hk => by
    rw [hl.mem_erase_iff]; exact ⟨And.right, fun h => ⟨ne_of_mem_of_not_mem hk hv, h⟩⟩

/-- Removing `v` from a duplicate-free list credits at most `v` itself, and only when the list
held `v` and `v` carries `p`. -/
theorem credit_erase_le {l keys : List Bytes} (hl : l.Nodup) (hk : keys.Nodup) (v : Bytes) :
    credit p keys (l.erase v) ≤ credit p keys l + if v ∈ l ∧ payloadOf v = some p then 1 else 0 := by
  by_cases hv : v ∈ keys
  · obtain ⟨pre, post, rfl⟩ := List.append_of_mem hv
    have hv' := (List.nodup_cons.1 (List.nodup_middle.1 hk)).1
    rw [List.mem_append, not_or] at hv'
    have hpre := credit_erase_of_not_mem p hl hv'.1
    have hpost := credit_erase_of_not_mem p hl hv'.2
    simp only [credit, List.countP_append, List.countP_cons] at hpre hpost ⊢
    rw [hpre, hpost]
    have := hl.not_mem_erase (a := v)
    by_cases hvl : v ∈ l <;> simp only [hvl, this, not_false_eq_true, true_and, not_true_eq_false,
      false_and, decide_eq_true_eq] <;> split_ifs <;> omega
  · rw [credit_erase_of_not_mem p hl hv]; omega

end

/-! ## The invariant of one reaper -/

/-- The lists and the single reaper after the payloads `sent` were sent: no entry is in the lists
twice, the batch has no duplicate and nothing of the main list, and for each payload the entries
and the credit of the batch are at most its sends, plus the push the reaper may owe. -/
structure ReaperInv (sent : List Bytes) (r : Redis) (pc : ReaperPc) : Prop where
  nodup : (r.main ++ r.processing).Nodup
  keysNodup : pc.keys.Nodup
  keysNotMain : ∀ k ∈ pc.keys, k ∉ r.main
  count : ∀ p, carriers p r.main + carriers p r.processing + credit p pc.keys r.processing ≤
    sent.count p + pc.owes p

section
variable {sent : List Bytes} {r : Redis} {pc : ReaperPc} {lim key : Bytes} {keys : List Bytes}

theorem ReaperInv.processing_nodup (hI : ReaperInv sent r pc) : r.processing.Nodup :=
  (List.nodup_append.1 hI.nodup).2.1

/-- A state with fewer batch keys that owes at least as much keeps the invariant. -/
theorem ReaperInv.narrow (hI : ReaperInv sent r pc) {pc' : ReaperPc} (hsub : pc'.keys.Sublist pc.keys)
    (howes : ∀ p, pc.owes p ≤ pc'.owes p) : ReaperInv sent r pc' :=
  ⟨hI.nodup, hI.keysNodup.sublist hsub, fun k hk => hI.keysNotMain k (hsub.subset hk), fun p => by
    have := hI.count p
    have := hsub.countP_le (fun k => k ∉ r.processing ∧ payloadOf k = some p)
    have := howes p
    simp only [credit] at *
    omega⟩

/-- `send_raw` of `p'` as a new frame `v`. -/
theorem ReaperInv.lpush (hI : ReaperInv sent r pc) {v p' : Bytes} (hv : payloadOf v = some p')
    (hmain : v ∉ r.main) (hproc : v ∉ r.processing) (hkeys : v ∉ pc.keys) :
    ReaperInv (sent ++ [p']) ⟨v :: r.main, r.processing⟩ pc := by
  refine ⟨?_, hI.keysNodup, fun k hk => ?_, fun p => ?_⟩
  · exact List.nodup_cons.2 ⟨by simp [hmain, hproc], hI.nodup⟩
  · simp only [List.mem_cons, not_or]
    exact ⟨fun h => hkeys (h ▸ hk), hI.keysNotMain k hk⟩
  · have := hI.count p
    simp only [carriers_cons, List.count_append, List.count_cons, List.count_nil, beq_iff_eq, hv,
      Option.some.injEq]
    split_ifs <;> omega

/-- A `BRPOPLPUSH` moves an entry without changing any count. -/
theorem ReaperInv.receive (hI : ReaperInv sent r pc) {reply : Reply} {t m : Nat}
    {o : Except QueueError (Option Delivery) × Redis} (h : receiveWithTimeout reply t m r = some o) :
    ReaperInv sent o.2 pc := by
  rcases receiveWithTimeout_cases h with ⟨hr, -⟩ | ⟨f, main, hm, hr, -⟩
  · rwa [hr]
  · rw [hr]
    have hnd := hI.nodup
    have hcount := hI.count
    have hkeys := hI.keysNotMain
    rw [hm] at hnd hcount hkeys
    have hf : f ∉ pc.keys := fun hf => hkeys f hf (by simp)
    refine ⟨by simpa using hnd, hI.keysNodup, fun k hk hk' => hkeys k hk (by simp [hk']), fun p => ?_⟩
    have hc := hcount p
    rw [@credit_congr p pc.keys r.processing (f :: r.processing) fun k hk => by
      simp [show k ≠ f from fun h => hf (h ▸ hk)]] at hc
    simp only [carriers_append, carriers_cons, carriers_nil] at hc ⊢
    omega

/-- An `LREM` of any value by an acker. -/
theorem ReaperInv.erase (hI : ReaperInv sent r pc) (v : Bytes) :
    ReaperInv sent ⟨r.main, r.processing.erase v⟩ pc := by
  refine ⟨hI.nodup.sublist ((List.erase_sublist _ _).append_left _), hI.keysNodup, hI.keysNotMain,
    fun p => ?_⟩
  have := hI.count p
  have := carriers_erase p v r.processing
  have := credit_erase_le p hI.processing_nodup hI.keysNodup v
  dsimp only
  omega

/-- The reaper pushes back the frame `v` it re-encodes from the head of its batch. -/
theorem ReaperInv.push (hI : ReaperInv sent r (.scanning lim (key :: keys))) {x : Bytes × Nat}
    (hx : internalFromList key = .ok x) {v : Bytes} (hv : payloadOf v = some x.1) (hmain : v ∉ r.main)
    (hproc : v ∉ r.processing) (hkeys : v ∉ key :: keys) :
    ReaperInv sent ⟨r.main ++ [v], r.processing⟩ (.removing lim key keys) := by
  refine ⟨?_, hI.keysNodup, fun k hk => ?_, fun p => ?_⟩
  · rw [List.append_assoc, List.singleton_append, List.nodup_middle]
    exact List.nodup_cons.2 ⟨by simp [hmain, hproc], hI.nodup⟩
  · simp only [List.mem_append, List.mem_singleton, not_or]
    exact ⟨hI.keysNotMain k hk, fun h => hkeys (h ▸ hk)⟩
  · have := hI.count p
    simp only [ReaperPc.owes, ReaperPc.keys, carriers_append, carriers_cons, carriers_nil, hv,
      payloadOf_of_ok hx] at this ⊢
    split_ifs <;> omega

/-- The reaper's `LREM` of the key it reclaimed settles what it owed for it. -/
theorem ReaperInv.lrem (hI : ReaperInv sent r (.removing lim key keys)) :
    ReaperInv sent ⟨r.main, r.processing.erase key⟩ (.scanning lim keys) := by
  have hnd := hI.keysNodup
  simp only [ReaperPc.keys, List.nodup_cons] at hnd
  refine ⟨hI.nodup.sublist ((List.erase_sublist _ _).append_left _), hnd.2,
    fun k hk => hI.keysNotMain k (List.mem_cons_of_mem _ hk), fun p => ?_⟩
  have h₁ := hI.count p
  have h₂ := carriers_erase p key r.processing
  show _ + _ + credit p keys (r.processing.erase key) ≤ _ + 0
  rw [credit_erase_of_not_mem p hI.processing_nodup hnd.1]
  simp only [ReaperPc.owes, ReaperPc.keys, credit_cons] at h₁ ⊢
  by_cases hp : payloadOf key = some p <;> by_cases hk : key ∈ r.processing <;>
    simp only [hp, hk, true_and, and_true, not_true_eq_false, not_false_eq_true, if_true, if_false,
      and_false] at h₁ h₂ <;> omega

/-- The batch `LRANGE` reads keys that are all in the processing list, so they carry no credit. -/
theorem ReaperInv.batch (hI : ReaperInv sent r (.peeked lim)) :
    ReaperInv sent r (.scanning lim (lrange r.processing 0 batchSize)) := by
  have hsub : (lrange r.processing 0 batchSize).Sublist r.processing :=
    (List.take_sublist _ _).trans (List.drop_sublist _ _)
  refine ⟨hI.nodup, hI.processing_nodup.sublist hsub,
    fun k hk hm => List.disjoint_of_nodup_append hI.nodup hm (hsub.subset hk), fun p => ?_⟩
  have := hI.count p
  simp only [ReaperPc.keys, ReaperPc.owes, credit_nil, credit_of_subset p hsub.subset] at this ⊢
  omega

/-- Every reaper step whose command succeeds keeps the invariant, when the frame it may push is
new. -/
theorem ReaperInv.reaperStep (hI : ReaperInv sent r pc) (m : Nat) (limit : Bytes) {newId : Bytes}
    (hid : sep ∉ newId)
    (hfresh : ∀ v, (pc.step m limit newId true r).2.main = r.main ++ [v] →
      v ∉ r.main ∧ v ∉ r.processing ∧ v ∉ pc.keys) :
    ReaperInv sent (pc.step m limit newId true r).2 (pc.step m limit newId true r).1 := by
  rcases pc.step_cases m limit newId true r with hs | ⟨rfl, -, hs⟩ | ⟨lim, rfl, hs⟩ |
      ⟨lim, key, keys, rfl, hs⟩ | ⟨lim, key, keys, x, rfl, -, hx, ⟨hs, -⟩ | ⟨hs, -⟩⟩ |
      ⟨lim, key, keys, rfl, -, hs⟩ <;> rw [hs] at hfresh ⊢
  -- stopping owes nothing more: a reaper in `removing` moves on to `scanning`, never to `idle`
  · refine hI.narrow (List.nil_sublist _) fun p => ?_
    cases pc <;> first | exact le_rfl | simp [ReaperPc.step] at hs
  · exact hI.narrow (List.nil_sublist _) fun _ => le_rfl
  · exact hI.batch
  · exact hI.narrow (List.sublist_cons_self _ _) fun _ => le_rfl
  · exact hI.narrow (List.Sublist.refl _) fun _ => Nat.zero_le _
  · obtain ⟨hm, hp, hk⟩ := hfresh _ rfl
    exact hI.push hx (payloadOf_internalToListPayload hid x) hm hp hk
  · exact hI.lrem

end

/-! ## The engine with one reaper -/

/-- The engine has one reaper, and the invariant holds of it. -/
def SingleInv (sent : List Bytes) (e : Engine) : Prop := ∃ pc, e.reapers = [pc] ∧ ReaperInv sent e.redis pc

theorem singleInv_init (cfg : Config) : SingleInv [] (Engine.init cfg 1) :=
  ⟨.idle, rfl, List.nodup_nil, List.nodup_nil, fun _ h => absurd h (List.not_mem_nil _),
    fun p => by simp [Engine.init, Redis.empty, ReaperPc.keys, ReaperPc.owes]⟩

section
variable (K : KsuidMs) (cfg : Config)

/-- What a step adds at the head or tail of the main list is new, by `WritesFresh`. -/
theorem Engine.WritesFresh.added {e e' : Engine} (hfresh : e.WritesFresh e') {v : Bytes}
    (h : e'.redis.main = v :: e.redis.main ∨ e'.redis.main = e.redis.main ++ [v]) :
    v ∉ e.redis.main ∧ v ∉ e.redis.processing ∧ ∀ pc ∈ e.reapers, v ∉ pc.keys := by
  rcases h with h | h <;> exact hfresh v (by simp [h]) (by simp [h, List.count_cons])

/-- Every step that succeeds and writes only new frames keeps `SingleInv`, adding what it sends. -/
theorem SingleInv.step {sent : List Bytes} {e e' : Engine} {a : Action} (hok : a.succeeds = true)
    (h : e.step K cfg a = some e') (hfresh : e.WritesFresh e') (hI : SingleInv sent e) :
    SingleInv (sent ++ a.sent.toList) e' := by
  obtain ⟨pc, hpc, hR⟩ := hI
  cases a with
  | tick => cases h; exact ⟨pc, hpc, by simpa [Action.sent] using hR⟩
  | sendRaw p' rand ok =>
    cases h
    obtain rfl : ok = true := hok
    obtain ⟨hm, hp, hk⟩ := hfresh.added (.inl rfl)
    exact ⟨pc, hpc, hR.lpush (payloadOf_internalToListPayload (K.sep_not_mem _ _) _) hm hp
      (hk pc (by simp [hpc]))⟩
  | receive =>
    simp only [Engine.step, Option.map_eq_some'] at h
    obtain ⟨o, ho, rfl⟩ := h
    exact ⟨pc, hpc, by simpa [Action.sent] using hR.receive ho⟩
  | finalize j c ok =>
    obtain ⟨d, -, rfl⟩ := Engine.step_finalize_eq_some K cfg h
    refine ⟨pc, hpc, ?_⟩
    simp only [Action.sent, Option.toList, List.append_nil]
    rcases call_processing d.acker c ok e.redis.processing with hl | hl <;> rw [hl]
    exacts [hR, hR.erase _]
  | reap i rand ok =>
    obtain rfl : ok = true := hok
    obtain ⟨pc', hpc', rfl⟩ := Engine.step_reap_eq_some K cfg h
    rw [hpc] at hpc' ⊢
    cases i with
    | succ i => simp at hpc'
    | zero =>
      obtain rfl : pc = pc' := by simpa using hpc'
      have hstep := hR.reaperStep cfg.maxReceives (K.text (e.clock - cfg.ackDeadline) rand)
        (K.sep_not_mem e.clock rand) fun v hv => by
          obtain ⟨hm, hp, hk⟩ := hfresh.added (.inr hv)
          exact ⟨hm, hp, hk pc (by simp [hpc])⟩
      exact ⟨_, rfl, by simpa [Action.sent] using hstep⟩

/-- One engine instance, every command succeeding, every written frame new: from empty lists,
each payload is carried by at most as many entries across main and processing as `send_raw` sent
it, at every point where the reaper is not between reclaiming a frame of that payload and the
`LREM` of that frame. -/
theorem single_reaper_never_duplicates (acts : List Action) (e : Engine)
    (h : Engine.Run K cfg Engine.FreshStep (Engine.init cfg 1) acts e) (p : Bytes)
    (hp : ∀ lim key keys, ReaperPc.removing lim key keys ∈ e.reapers → payloadOf key ≠ some p) :
    carriers p e.redis.main + carriers p e.redis.processing ≤ (sentPayloads acts).count p := by
  have hI := h.induction K cfg SingleInv (fun s a => s ++ a.sent.toList)
    (fun _ _ _ _ hs hG hI => hI.step K cfg hG.1 hs hG.2) (singleInv_init cfg)
  rw [foldl_append_sent, List.nil_append] at hI
  obtain ⟨pc, hpc, hR⟩ := hI
  have hcount := hR.count p
  have howes : pc.owes p = 0 := by
    cases pc <;> simp only [ReaperPc.owes]
    rename_i lim key keys
    simp [hp lim key keys (by simp [hpc])]
  omega

end

/-- One reaper racing an ack that lands between the batch read and the push: the message comes
back to main, and is still carried by one entry only. -/
theorem single_reaper_never_duplicates_of_race :
    let acts : List Action := [.sendRaw payloadP 0 true, .receive 0 .arrived, .tick, .tick, .tick,
      .reap 0 0 true, .reap 0 0 true, .finalize 0 .ack true, .reap 0 0 true, .reap 0 0 true]
    let e : Engine := ⟨⟨[internalToListPayload (tallyKsuid.text 5 0) (payloadP, 1)], []⟩, 5,
      [⟨payloadP, ⟨tallyFrame 2 payloadP, true, 5, 1⟩⟩], [.scanning (tallyKsuid.text 3 0) []]⟩
    Engine.Run tallyKsuid ⟨2, 5⟩ Engine.FreshStep (Engine.init ⟨2, 5⟩ 1) acts e ∧
    (∀ lim key keys, ReaperPc.removing lim key keys ∈ e.reapers → payloadOf key ≠ some payloadP) ∧
    carriers payloadP e.redis.main + carriers payloadP e.redis.processing ≤ (sentPayloads acts).count payloadP := by
  intro acts e
  have hrun : Engine.Run tallyKsuid ⟨2, 5⟩ Engine.FreshStep (Engine.init ⟨2, 5⟩ 1) acts e := by
    repeat (first | exact .nil _ | refine .cons rfl ⟨rfl, by decide⟩ ?_)
  have hp : ∀ lim key keys, ReaperPc.removing lim key keys ∈ e.reapers → payloadOf key ≠ some payloadP := by
    simp [e]
  exact ⟨hrun, hp, single_reaper_never_duplicates tallyKsuid ⟨2, 5⟩ acts e hrun payloadP hp⟩

end Omniqueue

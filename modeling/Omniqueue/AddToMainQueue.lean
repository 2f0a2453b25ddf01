import Mathlib.Data.List.Forall2
import Omniqueue.FallbackConsumer

/-!
# Pushing regenerated keys to the main list

`add_to_main_queue` regenerates every key before it sends anything: the `collect` into a `Result`
stops at the first key that `internal_from_list` rejects, and then no `LPUSH` is issued. Otherwise
one `LPUSH` sends all the new frames, each in turn at the head, so that the pop end of the main
list yields the frames already there and then the new ones in the order of the keys. Each new
frame stores the count `internal_from_list` read, so it reads one receive more than its key.
-/

namespace Omniqueue

section
variable {α β ε : Type} (g : α → Except ε β)

/-- A `mapM` into `Except` that succeeds has succeeded on every element, in order. -/
theorem mapM_eq_ok_forall₂ {l : List α} {l' : List β} (h : l.mapM g = .ok l') :
    List.Forall₂ (fun a b => g a = .ok b) l l' := by
  induction l generalizing l' with
  | nil => cases h; exact .nil
  | cons a l ih =>
    rw [List.mapM_cons] at h
    cases ha : g a with
    | error e => rw [ha] at h; cases h
    | ok b =>
      cases hl : l.mapM g with
      | error e => rw [ha, hl] at h; cases h
      | ok bs => rw [ha, hl] at h; cases h; exact .cons ha (ih hl)

/-- A `mapM` into `Except` fails as soon as one element fails. -/
theorem mapM_eq_error_of_mem {l : List α} {a : α} (ha : a ∈ l) {e : ε} (he : g a = .error e) :
    ∃ e', l.mapM g = .error e' := by
  induction l with
  | nil => cases ha
  | cons b l ih =>
    rw [List.mapM_cons]
    rcases List.mem_cons.1 ha with rfl | ha
    · rw [he]; exact ⟨e, rfl⟩
    · cases hb : g b with
      | error e' => exact ⟨e', rfl⟩
      | ok c =>
        obtain ⟨e', he'⟩ := ih ha
        exact ⟨e', by rw [he']; rfl⟩

end

/-- A key that `regenerate_key` accepts decodes, and its new frame decodes to the same payload,
read as received once more. -/
theorem regenerateKey_eq_ok {id k f : Bytes} (hid : sep ∉ id) (h : regenerateKey id k = .ok f) :
    ∃ x, internalFromList k = .ok x ∧ internalFromList f = .ok (x.1, x.2 + 1) := by
  cases hx : internalFromList k with
  | error e => simp [regenerateKey, hx, Except.map] at h
  | ok x => exact ⟨x, rfl, internalFromList_regenerateKey hid hx h⟩

/-- `add_to_main_queue` is all or nothing and keeps order. If `internal_from_list` rejects any
key, the call fails and the main list is as it was. If the call succeeds, there is one new frame
per key, decoding to the key's payload with one receive more, and the main list read from its pop end
is the old one followed by the new frames in the order of the keys. -/
theorem addToMainQueue_all_or_nothing (ok : Bool) (newId : Bytes → Bytes) (hid : ∀ k, sep ∉ newId k)
    (keys main : List Bytes) :
    ((∃ k ∈ keys, ∃ e, internalFromList k = .error e) →
      (∃ e, (addToMainQueue ok newId keys main).1 = .error e) ∧ (addToMainQueue ok newId keys main).2 = main) ∧
    ((addToMainQueue ok newId keys main).1 = .ok () →
      ∃ news, List.Forall₂ (fun k f => ∃ x, internalFromList k = .ok x ∧ internalFromList f = .ok (x.1, x.2 + 1)) keys news ∧
        (addToMainQueue ok newId keys main).2.reverse = main.reverse ++ news) := by
  cases hm : keys.mapM fun key => regenerateKey (newId key) key with
  | error e =>
    refine ⟨fun _ => ⟨⟨e, by simp only [addToMainQueue, hm]⟩, by simp only [addToMainQueue, hm]⟩, fun h => ?_⟩
    simp only [addToMainQueue, hm] at h
    cases h
  | ok news =>
    have hall := mapM_eq_ok_forall₂ _ hm
    refine ⟨fun ⟨k, hk, e, he⟩ => ?_, fun h => ⟨news, hall.imp fun k _ => regenerateKey_eq_ok (hid k), ?_⟩⟩
    -- a rejected key would have failed the `collect`
    · obtain ⟨e', he'⟩ := mapM_eq_error_of_mem (fun key => regenerateKey (newId key) key) hk
        (show regenerateKey (newId k) k = .error e by simp [regenerateKey, he, Except.map])
      cases hm.symm.trans he'
    · cases ok <;> by_cases hn : news = [] <;> simp only [addToMainQueue, hm, lpushAll, hn] at h ⊢ <;> simp at h ⊢

/-- Two keys, one of them a legacy frame: both are regenerated under new ids and pushed behind the
frame already in the main list. -/
theorem addToMainQueue_all_or_nothing_two_keys :
    let newId : Bytes → Bytes := fun _ => tallyKsuid.text 4 0
    let keys : List Bytes := [tallyFrame 0 payloadP, [48, 124] ++ payloadQ]
    let main : List Bytes := [tallyFrame 1 payloadQ]
    (∀ k, sep ∉ newId k) ∧
    addToMainQueue true newId keys main = (.ok (), [internalToListPayload (tallyKsuid.text 4 0) (payloadQ, 1),
      internalToListPayload (tallyKsuid.text 4 0) (payloadP, 1), tallyFrame 1 payloadQ]) ∧
    (((∃ k ∈ keys, ∃ e, internalFromList k = .error e) →
      (∃ e, (addToMainQueue true newId keys main).1 = .error e) ∧ (addToMainQueue true newId keys main).2 = main) ∧
    ((addToMainQueue true newId keys main).1 = .ok () →
      ∃ news, List.Forall₂ (fun k f => ∃ x, internalFromList k = .ok x ∧ internalFromList f = .ok (x.1, x.2 + 1)) keys news ∧
        (addToMainQueue true newId keys main).2.reverse = main.reverse ++ news)) := by
  intro newId keys main
  have hid : ∀ k, sep ∉ newId k := fun _ => tallyKsuid.sep_not_mem 4 0
  exact ⟨hid, rfl, addToMainQueue_all_or_nothing true newId hid keys main⟩

/-- A frame sent at tick 0 reads as received once; the frame `add_to_main_queue` pushes for it
reads as received twice. -/
theorem addToMainQueue_raises_attempts :
    internalFromList (tallyFrame 0 payloadP) = .ok (payloadP, 1) ∧
    addToMainQueue true (fun _ => tallyKsuid.text 4 0) [tallyFrame 0 payloadP] [] =
      (.ok (), [internalToListPayload (tallyKsuid.text 4 0) (payloadP, 1)]) ∧
    internalFromList (internalToListPayload (tallyKsuid.text 4 0) (payloadP, 1)) = .ok (payloadP, 2) := by
  decide

end Omniqueue

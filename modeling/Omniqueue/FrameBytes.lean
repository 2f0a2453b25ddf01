import Mathlib.Data.List.Basic

/-!
# Byte strings as the fallback engine stores them

Frames, payloads and KSUIDs are `Vec<u8>`. The reaper compares them as `[u8]` does
(lexicographically, a proper prefix first), frames are split at the byte `|`, and the attempt
count is written by `usize::to_string` and read back from its decimal digits.
-/

namespace Omniqueue

abbrev Bytes := List UInt8

/-- The frame separator `b'|'`. -/
def sep : UInt8 := 124

/-! ## Order of `[u8]` -/

/-- `a < b` on `[u8]`. -/
def lexLt : Bytes → Bytes → Bool
  | _, [] => false
  | [], _ :: _ => true
  | a :: as, b :: bs => a < b || (a == b && lexLt as bs)

/-- `a <= b` on `[u8]`, as in the reaper's `key <= validity_limit`. -/
def lexLe (a b : Bytes) : Bool := !lexLt b a

theorem lexLt_replicate_append {c a b : UInt8} (n : Nat) (xs ys : Bytes) (h : a < b) :
    lexLt (List.replicate n c ++ a :: xs) (List.replicate n c ++ b :: ys) = true := by
  induction n with
  | zero => simp [lexLt, h]
  | succ n ih => simp [List.replicate_succ, lexLt, ih]

/-- `<` on `[u8]` is asymmetric. -/
theorem lexLt_asymm : ∀ {a b : Bytes}, lexLt a b = true → lexLt b a = false
  | _, [], h => by simp [lexLt] at h
  | [], _ :: _, _ => rfl
  | x :: xs, y :: ys, h => by
    simp only [lexLt, Bool.or_eq_true, decide_eq_true_eq, Bool.and_eq_true, beq_iff_eq] at h
    rcases h with h | ⟨rfl, h⟩
    · have hne : y ≠ x := fun e => UInt8.lt_irrefl x (e ▸ h)
      simp [lexLt, UInt8.lt_asymm h, hne]
    · simp [lexLt, lexLt_asymm h]

/-! ## Decimal attempt counts -/

/-- The ASCII digit of `d < 10`. -/
def digit (d : Nat) : UInt8 := (48 + d).toUInt8

def isDigit (b : UInt8) : Bool := 48 ≤ b.toNat && b.toNat ≤ 57

/-- Digits of `n` pushed in front of `acc`, most significant first, using at most `fuel` digits. -/
def decimalAux : Nat → Nat → Bytes → Bytes
  | 0, _, acc => acc
  | fuel + 1, n, acc =>
    if n < 10 then digit n :: acc else decimalAux fuel (n / 10) (digit (n % 10) :: acc)

/-- `usize::to_string`. -/
def decimal (n : Nat) : Bytes := decimalAux (n + 1) n []

/-- The value of decimal digits read after the value `acc`. -/
def digitsValue (acc : Nat) (s : Bytes) : Nat := s.foldl (fun n b => 10 * n + (b.toNat - 48)) acc

/-- `str::parse::<usize>` on an attempt field: one digit or more and nothing else. -/
def parseDecimal (s : Bytes) : Option Nat :=
  if s ≠ [] ∧ s.all isDigit then some (digitsValue 0 s) else none

theorem digit_toNat {d : Nat} (h : d < 10) : (digit d).toNat = 48 + d := by
  rw [digit, Nat.toUInt8, UInt8.toNat_ofNat_of_lt (by simp [UInt8.size]; omega)]

theorem isDigit_digit {d : Nat} (h : d < 10) : isDigit (digit d) = true := by
  simp [isDigit, digit_toNat h]
  omega

theorem digitsValue_cons_digit (acc : Nat) {d : Nat} (h : d < 10) (s : Bytes) :
    digitsValue acc (digit d :: s) = digitsValue (10 * acc + d) s := by
  simp [digitsValue, digit_toNat h]

theorem decimalAux_value (acc : Bytes) :
    ∀ fuel n, n < fuel → digitsValue 0 (decimalAux fuel n acc) = digitsValue n acc := by
  intro fuel
  induction fuel generalizing acc with
  | zero => intro n h; omega
  | succ fuel ih =>
    intro n h
    by_cases hn : n < 10
    · simp [decimalAux, hn, digitsValue_cons_digit 0 hn]
    · have hlt : n / 10 < fuel := by omega
      rw [decimalAux, if_neg hn, ih _ _ hlt, digitsValue_cons_digit _ (Nat.mod_lt n (by omega)),
        Nat.div_add_mod]

theorem decimalAux_all_isDigit {acc : Bytes} (hacc : acc.all isDigit = true) :
    ∀ fuel n, (decimalAux fuel n acc).all isDigit = true := by
  intro fuel
  induction fuel generalizing acc with
  | zero => intro n; exact hacc
  | succ fuel ih =>
    intro n
    have hmod : n % 10 < 10 := Nat.mod_lt n (by omega)
    by_cases hn : n < 10
    · simp [decimalAux, hn, isDigit_digit hn, hacc]
    · simp only [decimalAux, if_neg hn]
      exact ih (by simp [isDigit_digit hmod, hacc]) _

theorem decimalAux_ne_nil (acc : Bytes) (n : Nat) : ∀ fuel, 0 < fuel → decimalAux fuel n acc ≠ [] := by
  intro fuel
  induction fuel generalizing n acc with
  | zero => intro h; omega
  | succ fuel ih =>
    intro _
    by_cases hn : n < 10
    · simp [decimalAux, hn]
    · cases fuel with
      | zero => simp [decimalAux, hn]
      | succ fuel =>
        simp only [decimalAux, if_neg hn]
        exact ih _ _ (by omega)

@[simp] theorem parseDecimal_decimal (n : Nat) : parseDecimal (decimal n) = some n := by
  have hall := @decimalAux_all_isDigit [] rfl (n + 1) n
  simp only [parseDecimal, decimal] at hall ⊢
  rw [if_pos ⟨decimalAux_ne_nil [] n (n + 1) (by omega), hall⟩, decimalAux_value [] _ _ (by omega)]
  rfl

theorem sep_not_mem_of_all_isDigit {s : Bytes} (h : s.all isDigit = true) : sep ∉ s :=
  fun hs => absurd (List.all_eq_true.mp h sep hs) (by decide)

theorem sep_not_mem_decimal (n : Nat) : sep ∉ decimal n :=
  sep_not_mem_of_all_isDigit (@decimalAux_all_isDigit [] rfl (n + 1) n)

/-! ## Splitting at the separator -/

/-- The bytes before the first `|` and the bytes after it, or `none` without a `|`. -/
def splitSep : Bytes → Option (Bytes × Bytes)
  | [] => none
  | b :: bs => if b = sep then some ([], bs) else (splitSep bs).map fun p => (b :: p.1, p.2)

@[simp] theorem splitSep_append {a : Bytes} (h : sep ∉ a) (b : Bytes) :
    splitSep (a ++ sep :: b) = some (a, b) := by
  induction a with
  | nil => simp [splitSep]
  | cons x a ih =>
    simp only [List.mem_cons, not_or] at h
    simp [splitSep, Ne.symm h.1, ih h.2]

theorem splitSep_eq_none {f : Bytes} : splitSep f = none ↔ sep ∉ f := by
  induction f with
  | nil => simp [splitSep]
  | cons x f ih =>
    by_cases hx : x = sep
    · simp [splitSep, hx]
    · simp [splitSep, hx, ih, Ne.symm hx]

theorem splitSep_eq_some {f a b : Bytes} (h : splitSep f = some (a, b)) :
    f = a ++ sep :: b ∧ sep ∉ a := by
  induction f generalizing a with
  | nil => simp [splitSep] at h
  | cons x f ih =>
    by_cases hx : x = sep
    · simp only [splitSep, hx, if_true, Option.some.injEq, Prod.mk.injEq] at h
      obtain ⟨rfl, rfl⟩ := h
      simp [hx]
    · simp only [splitSep, hx, if_false, Option.map_eq_some', Prod.exists, Prod.mk.injEq] at h
      obtain ⟨a', b', hs, rfl, rfl⟩ := h
      obtain ⟨rfl, hn⟩ := ih hs
      exact ⟨rfl, by simp [Ne.symm hx, hn]⟩

/-! ## Millisecond KSUIDs -/

/-- What the engine relies on from `svix_ksuid::KsuidMs`: `text t r` is the id made at tick `t`
(the id's time resolution) with random part `r`. It never holds the separator, and an id made
earlier sorts before one made later, whatever bytes follow the later one. -/
structure KsuidMs where
  text : Nat → Nat → Bytes
  sep_not_mem : ∀ t r, sep ∉ text t r
  lexLt_of_lt : ∀ {t' t : Nat} (r' r : Nat) (rest : Bytes), t' < t →
    lexLt (text t' r') (text t r ++ rest) = true

/-- A frame whose id compares at most the id of tick `t` was made no later than `t`. -/
theorem KsuidMs.le_of_lexLe (K : KsuidMs) {w t r r' : Nat} {rest : Bytes}
    (h : lexLe (K.text w r ++ rest) (K.text t r') = true) : w ≤ t := by
  by_contra hlt
  have := K.lexLt_of_lt r' r rest (Nat.lt_of_not_le hlt)
  simp [lexLe, this] at h

/-- An id scheme meeting the contract for all times, used to run concrete traces: `t` bytes `z`
and then the last decimal digit of `r`. -/
def tallyKsuid : KsuidMs where
  text t r := List.replicate t 122 ++ [digit (r % 10)]
  sep_not_mem t r := by
    have hd := sep_not_mem_of_all_isDigit (s := [digit (r % 10)])
      (by simp [isDigit_digit (Nat.mod_lt r (show 0 < 10 by omega))])
    simp only [List.mem_append, List.mem_replicate, not_or]
    exact ⟨by simp [sep], hd⟩
  lexLt_of_lt {t' t} r' r rest h := by
    show lexLt (List.replicate t' 122 ++ [digit (r' % 10)])
      (List.replicate t 122 ++ [digit (r % 10)] ++ rest) = true
    obtain ⟨k, rfl⟩ := Nat.exists_eq_add_of_lt h
    have hd : digit (r' % 10) < 122 := by
      rw [UInt8.lt_def, BitVec.lt_def]
      show (digit (r' % 10)).toNat < 122
      rw [digit_toNat (Nat.mod_lt r' (by omega))]
      omega
    rw [show t' + k + 1 = t' + (k + 1) by omega, List.replicate_add, List.replicate_succ,
      List.append_assoc, List.append_assoc, List.cons_append]
    exact lexLt_replicate_append t' [] _ hd

theorem digit_lt_z {d : Nat} (h : d < 10) : digit d < 122 := by
  rw [UInt8.lt_def, BitVec.lt_def]
  show (digit d).toNat < 122
  rw [digit_toNat h]
  omega

/-- The tally ids also sort every frame made at an earlier tick at or below a later id. -/
theorem tallyKsuid_lexLe_of_lt {t' t : Nat} (r' r : Nat) (rest : Bytes) (h : t' < t) :
    lexLe (tallyKsuid.text t' r' ++ rest) (tallyKsuid.text t r) = true := by
  obtain ⟨k, rfl⟩ := Nat.exists_eq_add_of_lt h
  show (!lexLt (List.replicate (t' + k + 1) 122 ++ [digit (r % 10)])
    (List.replicate t' 122 ++ [digit (r' % 10)] ++ rest)) = true
  rw [show t' + k + 1 = t' + (k + 1) by omega, List.replicate_add, List.replicate_succ, List.append_assoc,
    List.append_assoc, List.cons_append, List.singleton_append,
    lexLt_asymm (@lexLt_replicate_append 122 _ _ t' rest _ (digit_lt_z (Nat.mod_lt r' (by omega))))]
  rfl

end Omniqueue

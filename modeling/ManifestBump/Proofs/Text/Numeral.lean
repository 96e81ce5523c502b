import Mathlib
import ManifestBump.Text.Basic

/-! Numbers in decimal.

A number has one numeral without leading zeros, the one it is printed as (`numeral_iff`). Numbers are in
the order of their numerals, where the longer one is the larger, and of two that are equally long the one
that is larger at the first digit they differ in (`Numeral.compare_eq`). -/
namespace ManifestBump.Text

/-- A number in decimal, without leading zeros. -/
structure Numeral (digits : List Char) (n : Nat) : Prop where
  ne_nil : digits ≠ []
  isDigit : ∀ c ∈ digits, c.isDigit = true
  lead : digits.head? = some '0' → digits = ['0']
  value : Nat.ofDigitChars 10 digits 0 = n

/-! ### How a number is printed -/

/-- No number but zero is printed with a leading zero. -/
theorem head_toDigits_ne_zero {n : Nat} (h : 0 < n) : (Nat.toDigits 10 n).head? ≠ some '0' := by
  induction n using Nat.strong_induction_on with
  | _ n ih =>
    rw [Nat.toDigits_eq_if (by decide)]
    split
    · rename_i hlt
      interval_cases n <;> decide
    · have hpos : 0 < n / 10 := by omega
      rw [List.head?_append_of_ne_nil _ Nat.toDigits_ne_nil]
      exact ih (n / 10) (by omega) hpos

theorem numeral_toDigits (n : Nat) : Numeral (Nat.toDigits 10 n) n where
  ne_nil := Nat.toDigits_ne_nil
  isDigit _ hc := Nat.isDigit_of_mem_toDigits (by decide) (by decide) hc
  lead hzero := by
    by_cases hn : n = 0
    · rw [hn]
      rfl
    · exact absurd hzero (head_toDigits_ne_zero (by omega))
  value := Nat.ofDigitChars_ten_toDigits

/-- The codes of digits. -/
theorem isDigit_iff {c : Char} : c.isDigit = true ↔ 48 ≤ c.toNat ∧ c.toNat ≤ 57 := Char.isDigit_iff_toNat

theorem digitChar_of_isDigit {c : Char} (h : c.isDigit = true) : Nat.digitChar (c.toNat - 48) = c := by
  have hc := isDigit_iff.mp h
  apply Char.toNat_inj.mp
  rw [Nat.toNat_digitChar_of_lt_ten (by omega)]
  omega

/-- Digits behind a number that is not zero are printed as they are. -/
theorem toDigits_append_digits {digits : List Char} {n : Nat} (h : ∀ c ∈ digits, c.isDigit = true) (hn : 0 < n) :
    Nat.toDigits 10 n ++ digits = Nat.toDigits 10 (Nat.ofDigitChars 10 digits n) := by
  induction digits generalizing n with
  | nil => simp
  | cons c digits ih =>
    have hc := h c List.mem_cons_self
    have hd : c.toNat - 48 < 10 := by have := isDigit_iff.mp hc; omega
    have hfirst : Nat.toDigits 10 n ++ [c] = Nat.toDigits 10 (10 * n + (c.toNat - 48)) := by
      rw [← Nat.toDigits_append_toDigits (by decide) hn hd, Nat.toDigits_of_lt_base hd, digitChar_of_isDigit hc]
    have hpos : 0 < 10 * n + (c.toNat - 48) := by omega
    calc Nat.toDigits 10 n ++ c :: digits
        = Nat.toDigits 10 n ++ [c] ++ digits := by rw [List.append_assoc, List.singleton_append]
      _ = Nat.toDigits 10 (10 * n + (c.toNat - 48)) ++ digits := by rw [hfirst]
      _ = _ := ih (fun d hd => h d (List.mem_cons_of_mem _ hd)) hpos
      _ = Nat.toDigits 10 (Nat.ofDigitChars 10 (c :: digits) n) := by rw [Nat.ofDigitChars_cons]; rfl

/-- **A number has one numeral**, the one it is printed as. -/
theorem numeral_iff {digits : List Char} {n : Nat} : Numeral digits n ↔ digits = Nat.toDigits 10 n := by
  constructor
  · rintro ⟨hne, hdigit, hlead, rfl⟩
    cases digits with
    | nil => exact absurd rfl hne
    | cons c digits =>
      by_cases hzero : c = '0'
      · rw [hlead (by simp [hzero])]
        rfl
      · have hc := hdigit c List.mem_cons_self
        have hcode := isDigit_iff.mp hc
        have hne : c.toNat ≠ 48 := fun h => hzero (Char.toNat_inj.mp h)
        have hfirst : Nat.toDigits 10 (c.toNat - 48) = [c] := by
          rw [Nat.toDigits_of_lt_base (by omega), digitChar_of_isDigit hc]
        have hbehind := toDigits_append_digits (n := c.toNat - 48)
          (fun d hd => hdigit d (List.mem_cons_of_mem _ hd)) (by omega)
        rw [hfirst, List.singleton_append] at hbehind
        rw [Nat.ofDigitChars_cons, Nat.mul_zero, Nat.zero_add]
        exact hbehind
  · rintro rfl
    exact numeral_toDigits n

/-! ### The order of numbers -/

/-- The order of two texts by the codes of their characters, from the first one on. -/
def compareChars (s t : List Char) : Ordering := List.compareLex (compareOn Char.toNat) s t

instance : Std.TransCmp compareChars := inferInstanceAs (Std.TransCmp (List.compareLex (compareOn Char.toNat)))

@[simp] theorem compareChars_cons (a b : Char) (s t : List Char) :
    compareChars (a :: s) (b :: t) = (compare a.toNat b.toNat).then (compareChars s t) :=
  List.compareLex_cons_cons

/-- Only the same texts are alike. -/
theorem eq_of_compareChars {s t : List Char} (h : compareChars s t = .eq) : s = t := by
  induction s generalizing t with
  | nil =>
    cases t with
    | nil => rfl
    | cons b t => cases h
  | cons a s ih =>
    cases t with
    | nil => cases h
    | cons b t =>
      rw [compareChars_cons, Ordering.then_eq_eq] at h
      rw [Char.toNat_inj.mp (Nat.compare_eq_eq.mp h.1), ih h.2]

/-- Equally many digits behind two numbers count once the numbers are the same. -/
theorem compare_ofDigitChars {a b : List Char} (ha : ∀ c ∈ a, c.isDigit = true) (hb : ∀ c ∈ b, c.isDigit = true)
    (hlength : a.length = b.length) (m n : Nat) :
    compare (Nat.ofDigitChars 10 a m) (Nat.ofDigitChars 10 b n) = (compare m n).then (compareChars a b) := by
  induction a generalizing b m n with
  | nil =>
    obtain rfl := List.eq_nil_of_length_eq_zero hlength.symm
    simp [compareChars, List.compareLex_nil_nil]
  | cons x a ih =>
    cases b with
    | nil => cases hlength
    | cons y b =>
      have hx := isDigit_iff.mp (ha x List.mem_cons_self)
      have hy := isDigit_iff.mp (hb y List.mem_cons_self)
      have hstep : compare (10 * m + (x.toNat - 48)) (10 * n + (y.toNat - 48)) =
          (compare m n).then (compare x.toNat y.toNat) := by
        simp only [Nat.compare_eq_ite_lt]
        split_ifs <;> first | rfl | omega
      rw [Nat.ofDigitChars_cons, Nat.ofDigitChars_cons, ih (fun c hc => ha c (List.mem_cons_of_mem _ hc))
        (fun c hc => hb c (List.mem_cons_of_mem _ hc)) (Nat.succ.inj hlength), compareChars_cons, ← Ordering.then_assoc]
      exact congrArg (Ordering.then · (compareChars a b)) hstep

/-- A number with fewer digits is smaller. -/
theorem Numeral.lt_of_length_lt {a b : List Char} {m n : Nat} (ha : Numeral a m) (hb : Numeral b n)
    (h : a.length < b.length) : m < n := by
  rw [numeral_iff.mp ha, numeral_iff.mp hb] at h
  have hm : m < 10 ^ (Nat.toDigits 10 m).length :=
    (Nat.length_toDigits_le_iff (by decide) Nat.length_toDigits_pos).mp le_rfl
  have hn : ¬n < 10 ^ (Nat.toDigits 10 m).length :=
    fun hlt => absurd ((Nat.length_toDigits_le_iff (by decide) Nat.length_toDigits_pos).mpr hlt) (by omega)
  omega

/-- **The order of numbers is that of their numerals**, by length and then from the first digit on. -/
theorem Numeral.compare_eq {a b : List Char} {m n : Nat} (ha : Numeral a m) (hb : Numeral b n) :
    compare m n = (compare a.length b.length).then (compareChars a b) := by
  rcases Nat.lt_trichotomy a.length b.length with h | h | h
  · rw [Nat.compare_eq_lt.mpr h, Nat.compare_eq_lt.mpr (ha.lt_of_length_lt hb h)]
    rfl
  · rw [← ha.value, ← hb.value, compare_ofDigitChars ha.isDigit hb.isDigit h, Nat.compare_eq_eq.mpr h,
      Nat.compare_eq_eq.mpr rfl]
  · rw [Nat.compare_eq_gt.mpr h, Nat.compare_eq_gt.mpr (hb.lt_of_length_lt ha h)]
    rfl

end ManifestBump.Text

import Mathlib
import ManifestBump.Proofs.Text.Cut
import ManifestBump.Proofs.Text.Numeral
import ManifestBump.Text.NaturalOrder

/-! The order of names with numbers in them.

The order looks at how long runs of digits are and at what the names agree on before they differ, so it is
not plain that it is an order at all. It is, because every name has a `key`, a list of numbers, such that
names are in the order of their keys from the first number on (`compareNamesFrom_eq`). Where two names have
numerals in the same place, the numbers decide (`compareNamesFrom_numerals`), and where they have letters there, the
letters do (`compareNamesFrom_letters`). -/
namespace ManifestBump.Text

/-! ### Keys -/

/-- Whether a whole number begins with this character, where a number begins. -/
def opensWhole (c : Char) : Bool := c.isDigit && c != '0'

/-- What counts more than the next character, behind a text with some ending: whether it is a digit, and how
long the run of digits is if that is a whole number. -/
def lead : Ending → List Char → List Nat
  | .other, c :: text => if opensWhole c then ['1'.toNat, digitRun (c :: text)] else [c.toNat, 0]
  | .whole, text => [digitRun text]
  | .zeros, c :: _ => if c.isDigit then [0] else [2]
  | .zeros, [] => [1]
  | _, _ => []

/-- The numbers that decide where a name stands, behind a text with some ending. -/
def key (ending : Ending) : List Char → List Nat
  | [] => lead ending []
  | c :: text => lead ending (c :: text) ++ c.toNat :: key (ending.after c) text

/-- The order of two lists of numbers, from the first one on. -/
def compareKeys (s t : List Nat) : Ordering := List.compareLex compare s t

@[simp] theorem compareKeys_cons (m n : Nat) (s t : List Nat) :
    compareKeys (m :: s) (n :: t) = (compare m n).then (compareKeys s t) :=
  List.compareLex_cons_cons

@[simp] theorem compareKeys_nil_cons (n : Nat) (t : List Nat) : compareKeys [] (n :: t) = .lt := rfl

@[simp] theorem compareKeys_cons_nil (m : Nat) (s : List Nat) : compareKeys (m :: s) [] = .gt := rfl

theorem digitRun_cons {c : Char} (h : c.isDigit = true) (text : List Char) :
    digitRun (c :: text) = digitRun text + 1 := by
  simp [digitRun, h]

theorem digitRun_of_not_isDigit {c : Char} (h : c.isDigit = false) (text : List Char) :
    digitRun (c :: text) = 0 := by
  simp [digitRun, h]

/-! ### What two names have in common -/

theorem exists_key_whole (text : List Char) : ∃ others, key .whole text = digitRun text :: others := by
  cases text with
  | nil => exact ⟨[], rfl⟩
  | cons c text => exact ⟨_, rfl⟩

/-- Inside of whole numbers, how long the runs of digits are is in the keys. -/
theorem compareKeys_whole (s t : List Char) :
    (compare (digitRun s + 1) (digitRun t + 1)).then (compareKeys (key .whole s) (key .whole t)) =
      compareKeys (key .whole s) (key .whole t) := by
  obtain ⟨x, hx⟩ := exists_key_whole s
  obtain ⟨y, hy⟩ := exists_key_whole t
  have hsucc : compare (digitRun s + 1) (digitRun t + 1) = compare (digitRun s) (digitRun t) := by
    simp only [Nat.compare_eq_ite_lt, Nat.add_lt_add_iff_right]
  rw [hx, hy, compareKeys_cons, hsucc, ← Ordering.then_assoc]
  cases compare (digitRun s) (digitRun t) <;> rfl

/-- A character that two names have in common does not count. -/
theorem compareKeys_same (ending : Ending) (c : Char) (s t : List Char) :
    compareKeys (key ending (c :: s)) (key ending (c :: t)) =
      compareKeys (key (ending.after c) s) (key (ending.after c) t) := by
  have hwhole := compareKeys_whole s t
  cases hc : c.isDigit with
  | false => cases ending <;> simp [key, lead, opensWhole, hc, digitRun_of_not_isDigit]
  | true =>
    have hrun := digitRun_cons hc
    cases ending with
    | whole => simpa [key, lead, hrun, Ending.after, hc] using hwhole
    | zeros => simp [key, lead, hc]
    | fraction => simp [key, lead]
    | other =>
      by_cases hzero : c = '0'
      · simp [key, lead, opensWhole, hzero]
      · simpa [key, lead, opensWhole, hrun, Ending.after, hc, hzero] using hwhole

/-! ### Where two names differ -/

theorem compare_zero_succ (n : Nat) : compare 0 (n + 1) = .lt := Nat.compare_eq_lt.mpr (Nat.succ_pos n)

theorem compare_succ_zero (n : Nat) : compare (n + 1) 0 = .gt := Nat.compare_eq_gt.mpr (Nat.succ_pos n)

/-- A whole number counts as the digit one next to any other character. -/
theorem compare_one_of_opensWhole {c d : Char} (hc : opensWhole c = true) (hd : opensWhole d = false) :
    compare 49 d.toNat = compare c.toNat d.toNat ∧ compare d.toNat 49 = compare d.toNat c.toNat := by
  simp only [opensWhole, Bool.and_eq_true, bne_iff_ne, ne_eq, isDigit_iff] at hc
  have hne : c.toNat ≠ 48 := fun h => hc.2 (Char.toNat_inj.mp h)
  have hother : d.toNat < 49 ∨ 57 < d.toNat := by
    by_contra hin
    have hdigit : d.isDigit = true := isDigit_iff.mpr (by omega)
    have hzero : d ≠ '0' := by
      rintro rfl
      exact hin (.inl (by decide))
    simp [opensWhole, hdigit, hzero] at hd
  simp only [Nat.compare_eq_ite_lt]
  constructor <;> split_ifs <;> first | rfl | omega

theorem compareBehind_other (a b : Char) (s t : List Char) :
    compareBehind .other (a :: s) (b :: t) =
      if opensWhole a && opensWhole b then compareRuns (a :: s) (b :: t) else compare a.toNat b.toNat := by
  by_cases ha : a = '0' <;> by_cases hb : b = '0' <;> cases hda : a.isDigit <;> cases hdb : b.isDigit <;>
    simp_all [compareBehind, compareCodes, opensWhole]

/-- Where characters differ, nothing behind them counts. -/
theorem compare_then {a b : Char} (h : a ≠ b) (behind : Ordering) :
    (compare a.toNat b.toNat).then behind = compare a.toNat b.toNat := by
  cases hcompare : compare a.toNat b.toNat with
  | eq => exact absurd (Char.toNat_inj.mp (Nat.compare_eq_eq.mp hcompare)) h
  | lt => rfl
  | gt => rfl

/-- Two characters that differ. -/
theorem compareKeys_ne (ending : Ending) {a b : Char} (h : a ≠ b) (s t : List Char) :
    compareKeys (key ending (a :: s)) (key ending (b :: t)) = compareBehind ending (a :: s) (b :: t) := by
  have hcodes := compare_then h
  cases ending with
  | fraction => simp [compareBehind, compareCodes, key, lead, hcodes]
  | zeros =>
    cases ha : a.isDigit <;> cases hb : b.isDigit <;>
      simp [compareBehind, compareCodes, key, lead, ha, hb, hcodes] <;> rfl
  | whole =>
    cases ha : a.isDigit <;> cases hb : b.isDigit <;>
      simp [compareBehind, compareCodes, compareRuns, key, lead, ha, hb, hcodes, digitRun, compare_zero_succ,
        compare_succ_zero]
  | other =>
    rw [compareBehind_other]
    cases ha : opensWhole a with
    | false =>
      cases hb : opensWhole b with
      | false => simp [key, lead, ha, hb, hcodes]
      | true => simp [key, lead, ha, hb, hcodes, (compare_one_of_opensWhole hb ha).2]
    | true =>
      cases hb : opensWhole b with
      | false => simp [key, lead, ha, hb, hcodes, (compare_one_of_opensWhole ha hb).1]
      | true => simp [compareRuns, compareCodes, key, lead, ha, hb, hcodes]

/-- The end of one name, and a character of the other. -/
theorem compareKeys_end (ending : Ending) (c : Char) (text : List Char) :
    compareKeys (key ending []) (key ending (c :: text)) = compareBehind ending [] (c :: text) ∧
      compareKeys (key ending (c :: text)) (key ending []) = compareBehind ending (c :: text) [] := by
  cases ending with
  | fraction => simp [compareBehind, compareCodes, key, lead]
  | zeros => cases hc : c.isDigit <;> simp [compareBehind, compareCodes, key, lead, hc] <;> decide
  | whole =>
    cases hc : c.isDigit <;>
      simp [compareBehind, compareCodes, key, lead, hc, digitRun, compare_zero_succ, compare_succ_zero]
  | other => cases hc : opensWhole c <;> simp [compareBehind, compareCodes, key, lead, hc]

/-- **Names are in the order of their keys.** -/
theorem compareNamesFrom_eq (ending : Ending) (s t : List Char) :
    compareNamesFrom ending s t = compareKeys (key ending s) (key ending t) := by
  induction s generalizing ending t with
  | nil =>
    cases t with
    | nil => cases ending <;> decide
    | cons b t => exact (compareKeys_end ending b t).1.symm
  | cons a s ih =>
    cases t with
    | nil => exact (compareKeys_end ending a s).2.symm
    | cons b t =>
      by_cases hab : a = b
      · subst hab
        rw [compareNamesFrom, if_pos rfl, ih, compareKeys_same]
      · rw [compareNamesFrom, if_neg hab, compareKeys_ne ending hab]

instance : Std.TransCmp compareKeys := inferInstanceAs (Std.TransCmp (List.compareLex compare))

/-- **The order of names is an order**, for all but names with the same key. -/
instance : Std.TransCmp compareNames where
  eq_swap {a b} := by
    simp only [compareNames, compareNamesFrom_eq]
    exact Std.OrientedCmp.eq_swap
  isLE_trans {a b c} hab hbc := by
    simp only [compareNames, compareNamesFrom_eq] at hab hbc ⊢
    exact Std.TransCmp.isLE_trans hab hbc

/-! ### Names with numerals in the same place -/

theorem compareNamesFrom_same (ending : Ending) (c : Char) (s t : List Char) :
    compareNamesFrom ending (c :: s) (c :: t) = compareNamesFrom (ending.after c) s t := by
  simp [compareNamesFrom]

theorem compareNamesFrom_ne (ending : Ending) {s t : List Char} (h : s.head? ≠ t.head?) :
    compareNamesFrom ending s t = compareBehind ending s t := by
  cases s with
  | nil => rfl
  | cons a s =>
    cases t with
    | nil => rfl
    | cons b t => rw [compareNamesFrom, if_neg (by simpa using h)]

/-- What names agree on does not count where there are no digits. -/
theorem compareNamesFrom_of_stops (ending : Ending) {s t : List Char} (hs : Stops Char.isDigit s)
    (ht : Stops Char.isDigit t) : compareNamesFrom ending s t = compareNamesFrom .other s t := by
  cases s with
  | nil =>
    cases t with
    | nil => cases ending <;> rfl
    | cons b t => cases ending <;> simp [compareNamesFrom, compareBehind, stops_cons_iff.mp ht]
  | cons a s =>
    have ha := stops_cons_iff.mp hs
    cases t with
    | nil => cases ending <;> simp [compareNamesFrom, compareBehind, ha]
    | cons b t =>
      by_cases hab : a = b
      · subst hab
        simp [compareNamesFrom, Ending.after, ha]
      · cases ending <;> simp [compareNamesFrom, hab, compareBehind, ha, stops_cons_iff.mp ht]

/-- A whole number that goes on is larger than one that does not. -/
theorem compareNamesFrom_longer {s t : List Char} {c : Char} (hs : Stops Char.isDigit s) (hc : c.isDigit = true) :
    compareNamesFrom .whole s (c :: t) = .lt ∧ compareNamesFrom .whole (c :: t) s = .gt := by
  have hne : s.head? ≠ some c := fun hhead => by
    have := hs c hhead
    rw [hc] at this
    cases this
  have hfirst : s.head?.any Char.isDigit = false := by
    rw [Option.any_eq_false]
    exact fun d hd => by simpa using hs d hd
  rw [compareNamesFrom_ne .whole (by simpa using hne), compareNamesFrom_ne .whole (by simpa using hne.symm)]
  simp [compareBehind, hfirst, hc]

theorem digitRun_append {digits rest : List Char} (h : ∀ c ∈ digits, c.isDigit = true)
    (hrest : Stops Char.isDigit rest) : digitRun (digits ++ rest) = digits.length := by
  rw [digitRun, takeWhile_append h hrest]

theorem compare_succ_succ (m n : Nat) : compare (m + 1) (n + 1) = compare m n := by
  simp only [Nat.compare_eq_ite_lt, Nat.add_lt_add_iff_right]

variable {a b s t : List Char} {m n : Nat}

/-- Inside of whole numbers the longer run of digits is the larger, and of runs that are equally long the one
that is larger at the first digit they differ in. -/
theorem compareNamesFrom_digits (ha : ∀ c ∈ a, c.isDigit = true) (hb : ∀ c ∈ b, c.isDigit = true)
    (hs : Stops Char.isDigit s) (ht : Stops Char.isDigit t) :
    compareNamesFrom .whole (a ++ s) (b ++ t) =
      ((compare a.length b.length).then (compareChars a b)).then (compareNamesFrom .other s t) := by
  induction a generalizing b with
  | nil =>
    cases b with
    | nil => exact compareNamesFrom_of_stops .whole hs ht
    | cons y b =>
      rw [List.nil_append, List.cons_append, (compareNamesFrom_longer hs (hb y List.mem_cons_self)).1,
        List.length_nil, List.length_cons, compare_zero_succ]
      rfl
  | cons x a ih =>
    have hx := ha x List.mem_cons_self
    have ha' : ∀ c ∈ a, c.isDigit = true := fun c hc => ha c (List.mem_cons_of_mem _ hc)
    cases b with
    | nil =>
      rw [List.nil_append, List.cons_append, (compareNamesFrom_longer ht hx).2, List.length_nil, List.length_cons,
        compare_succ_zero]
      rfl
    | cons y b =>
      have hy := hb y List.mem_cons_self
      have hb' : ∀ c ∈ b, c.isDigit = true := fun c hc => hb c (List.mem_cons_of_mem _ hc)
      rw [List.cons_append, List.cons_append, compareChars_cons, List.length_cons, List.length_cons, compare_succ_succ]
      by_cases hxy : x = y
      · subst hxy
        have hafter : Ending.whole.after x = .whole := by simp [Ending.after, hx]
        rw [compareNamesFrom_same, hafter, ih ha' hb', Nat.compare_eq_eq.mpr rfl]
        rfl
      · rw [compareNamesFrom_ne .whole (by simpa using hxy)]
        simp [compareBehind, hx, hy, compareRuns, compareCodes, digitRun_cons, digitRun_append ha' hs,
          digitRun_append hb' ht, compare_succ_succ, Ordering.then_assoc, compare_then hxy]

/-- **Where names have numerals in the same place, the numbers decide.** -/
theorem compareNamesFrom_numerals (ha : Numeral a m) (hb : Numeral b n) (hs : Stops Char.isDigit s)
    (ht : Stops Char.isDigit t) :
    compareNamesFrom .other (a ++ s) (b ++ t) = (compare m n).then (compareNamesFrom .other s t) := by
  obtain ⟨x, a, rfl⟩ := List.exists_cons_of_ne_nil ha.ne_nil
  obtain ⟨y, b, rfl⟩ := List.exists_cons_of_ne_nil hb.ne_nil
  have hx := ha.isDigit x List.mem_cons_self
  have hy := hb.isDigit y List.mem_cons_self
  have ha' : ∀ c ∈ a, c.isDigit = true := fun c hc => ha.isDigit c (List.mem_cons_of_mem _ hc)
  have hb' : ∀ c ∈ b, c.isDigit = true := fun c hc => hb.isDigit c (List.mem_cons_of_mem _ hc)
  have hx0 : x = '0' → a = [] := fun hzero => by simpa [hzero] using ha.lead
  have hy0 : y = '0' → b = [] := fun hzero => by simpa [hzero] using hb.lead
  rw [ha.compare_eq hb, List.cons_append, List.cons_append, compareChars_cons, List.length_cons, List.length_cons,
    compare_succ_succ]
  by_cases hxy : x = y
  · subst hxy
    rw [compareNamesFrom_same, Nat.compare_eq_eq.mpr rfl]
    by_cases hzero : x = '0'
    · obtain rfl := hx0 hzero
      obtain rfl := hy0 hzero
      exact compareNamesFrom_of_stops _ hs ht
    · have hafter : Ending.other.after x = .whole := by simp [Ending.after, hx, hzero]
      rw [hafter, compareNamesFrom_digits ha' hb' hs ht]
      rfl
  · -- a zero is a numeral of its own, so it is the shorter one and the smaller digit
    have hzero : ∀ {c d : Char}, c = '0' → d.isDigit = true → c ≠ d → c.toNat < d.toNat := by
      intro c d hc hd hne
      have hcode := isDigit_iff.mp hd
      have hdiffer : c.toNat ≠ d.toNat := fun h => hne (Char.toNat_inj.mp h)
      rw [hc] at hdiffer ⊢
      change 48 ≠ d.toNat at hdiffer
      change 48 < d.toNat
      omega
    have hbehind : ((compare a.length b.length).then (compare x.toNat y.toNat)).then (compareNamesFrom .other s t) =
        (compare a.length b.length).then (compare x.toNat y.toNat) := by
      rw [Ordering.then_assoc, compare_then hxy]
    rw [compareNamesFrom_ne .other (by simpa using hxy), compareBehind_other, compare_then hxy, hbehind]
    by_cases hx1 : x = '0'
    · rw [hx0 hx1, Nat.compare_eq_lt.mpr (hzero hx1 hy hxy)]
      cases b.length <;> simp [opensWhole, hx1, compare_zero_succ]
    · by_cases hy1 : y = '0'
      · rw [hy0 hy1, Nat.compare_eq_gt.mpr (hzero hy1 hx (Ne.symm hxy))]
        cases a.length <;> simp [opensWhole, hy1, compare_succ_zero]
      · simp [opensWhole, hx, hy, hx1, hy1, compareRuns, compareCodes, digitRun_cons, digitRun_append ha' hs,
          digitRun_append hb' ht, compare_succ_succ]

/-! ### Names with letters in the same place -/

theorem isAlpha_code {c : Char} (h : c.isAlpha = true) : 65 ≤ c.toNat := by
  have hA : ('A').val.toNat = 65 := rfl
  have ha : ('a').val.toNat = 97 := rfl
  simp only [Char.isAlpha, Char.isUpper, Char.isLower, Bool.or_eq_true, Bool.and_eq_true, decide_eq_true_eq,
    ge_iff_le, UInt32.le_iff_toNat_le, hA, ha] at h
  change 65 ≤ c.val.toNat
  omega

theorem isDigit_of_isAlpha {c : Char} (h : c.isAlpha = true) : c.isDigit = false := by
  rw [Bool.eq_false_iff]
  intro hdigit
  have := isAlpha_code h
  have := isDigit_iff.mp hdigit
  omega

/-- What two names have in common does not count where no digits follow. -/
theorem compareNamesFrom_append (front : List Char) (ending : Ending) {s t : List Char} (hs : Stops Char.isDigit s)
    (ht : Stops Char.isDigit t) : compareNamesFrom ending (front ++ s) (front ++ t) = compareNamesFrom .other s t := by
  induction front generalizing ending with
  | nil => exact compareNamesFrom_of_stops ending hs ht
  | cons c front ih => rw [List.cons_append, List.cons_append, compareNamesFrom_same, ih]

/-- The smaller character comes first, in front of one that is no digit. -/
theorem compareNamesFrom_of_lt {c d : Char} (h : c.toNat < d.toNat) (hd : d.isDigit = false) (s t : List Char) :
    compareNamesFrom .other (c :: s) (d :: t) = .lt := by
  have hne : c ≠ d := by
    rintro rfl
    omega
  have hopens : opensWhole d = false := by simp [opensWhole, hd]
  rw [compareNamesFrom_ne .other (by simpa using hne), compareBehind_other, hopens, Bool.and_false,
    if_neg Bool.false_ne_true, Nat.compare_eq_lt.mpr h]

/-- The shorter name comes first. -/
theorem compareNamesFrom_nil (d : Char) (t : List Char) : compareNamesFrom .other [] (d :: t) = .lt := by
  simp [compareNamesFrom, compareBehind, compareCodes]

/-- The text is over, or it goes on with a character in front of all letters and digits. -/
def Low (text : List Char) : Prop := ∀ c ∈ text.head?, c.toNat < 48

theorem low_nil : Low [] := by simp [Low]

theorem low_cons {c : Char} (h : c.toNat < 48) (text : List Char) : Low (c :: text) := by simpa [Low] using h

theorem Low.stops {text : List Char} (h : Low text) : Stops Char.isDigit text := by
  intro c hc
  rw [Bool.eq_false_iff]
  intro hdigit
  have := h c hc
  have := isDigit_iff.mp hdigit
  omega

/-- **Letters decide** where names have nothing but letters in the same place. -/
theorem compareNamesFrom_letters (ha : ∀ c ∈ a, c.isAlpha = true) (hb : ∀ c ∈ b, c.isAlpha = true) (hs : Low s)
    (h : compareChars a b = .lt) : compareNamesFrom .other (a ++ s) (b ++ t) = .lt := by
  induction a generalizing b with
  | nil =>
    cases b with
    | nil => cases h
    | cons y b =>
      have hy := hb y List.mem_cons_self
      cases s with
      | nil => exact compareNamesFrom_nil y (b ++ t)
      | cons c s =>
        have hc : c.toNat < 48 := hs c rfl
        have := isAlpha_code hy
        exact compareNamesFrom_of_lt (by omega) (isDigit_of_isAlpha hy) _ _
  | cons x a ih =>
    have hx := ha x List.mem_cons_self
    cases b with
    | nil => cases h
    | cons y b =>
      have hy := hb y List.mem_cons_self
      rw [compareChars_cons] at h
      rw [List.cons_append, List.cons_append]
      by_cases hxy : x = y
      · subst hxy
        have hafter : Ending.other.after x = .other := by simp [Ending.after, isDigit_of_isAlpha hx]
        rw [Nat.compare_eq_eq.mpr rfl] at h
        rw [compareNamesFrom_same, hafter]
        exact ih (fun c hc => ha c (List.mem_cons_of_mem _ hc)) (fun c hc => hb c (List.mem_cons_of_mem _ hc)) h
      · rw [compare_then hxy] at h
        exact compareNamesFrom_of_lt (Nat.compare_eq_lt.mp h) (isDigit_of_isAlpha hy) _ _

end ManifestBump.Text

import ManifestBump.Proofs.Text.Numeral
import ManifestBump.Version.Basic

/-! The precedence of versions, and what a bump is in it.

Versions are in the order of their three numbers, a pre-release comes before its release, and pre-releases are
in the order of their identifiers; build metadata does not count. A bump raises a version, and it raises it
no more than the level asks for (`Version.bump?_least`). -/
namespace ManifestBump
open Text

namespace Version

/-! ### Precedence -/

/-- The order of identifiers of pre-releases: numbers by their value, in front of all others, and those by
their characters. -/
def compareIdentifiers (a b : String) : Ordering :=
  match a.toList.all Char.isDigit, b.toList.all Char.isDigit with
  | true, true => compare (Nat.ofDigitChars 10 a.toList 0) (Nat.ofDigitChars 10 b.toList 0)
  | true, false => .lt
  | false, true => .gt
  | false, false => compareChars a.toList b.toList

/-- The order of pre-releases, where a version that is none is the latest. -/
def comparePre : (pre pre' : List String) → Ordering
  | [], [] => .eq
  | [], _ :: _ => .gt
  | _ :: _, [] => .lt
  | pre, pre' => List.compareLex compareIdentifiers pre pre'

/-- The order of the three numbers of versions. -/
def compareNumbers (v w : Version) : Ordering :=
  (compare v.major.toNat w.major.toNat).then
    ((compare v.minor.toNat w.minor.toNat).then (compare v.patch.toNat w.patch.toNat))

/-- The precedence of versions. -/
def precedence (v w : Version) : Ordering := (compareNumbers v w).then (comparePre v.pre w.pre)

/-- Numbers are in an order, characters are in one, and the two do not mix. -/
instance : Std.TransCmp compareIdentifiers where
  eq_swap {a b} := by
    have hchars : compareChars a.toList b.toList = (compareChars b.toList a.toList).swap := Std.OrientedCmp.eq_swap
    unfold compareIdentifiers
    cases a.toList.all Char.isDigit <;> cases b.toList.all Char.isDigit
    · exact hchars
    · rfl
    · rfl
    · exact Std.OrientedOrd.eq_swap
  isLE_trans {a b c} hab hbc := by
    have hchars : (compareChars a.toList b.toList).isLE → (compareChars b.toList c.toList).isLE →
        (compareChars a.toList c.toList).isLE := Std.TransCmp.isLE_trans
    unfold compareIdentifiers at *
    cases ha : a.toList.all Char.isDigit <;> cases hb : b.toList.all Char.isDigit <;>
      cases hc : c.toList.all Char.isDigit <;> simp only [ha, hb, hc] at hab hbc ⊢
    · exact hchars hab hbc
    all_goals first | exact Std.TransOrd.isLE_trans hab hbc | contradiction | rfl

instance : Std.TransCmp comparePre where
  eq_swap {a b} := by
    have hnames : List.compareLex compareIdentifiers a b = (List.compareLex compareIdentifiers b a).swap :=
      Std.OrientedCmp.eq_swap
    cases a <;> cases b <;> first | rfl | exact hnames
  isLE_trans {a b c} hab hbc := by
    have hnames : (List.compareLex compareIdentifiers a b).isLE → (List.compareLex compareIdentifiers b c).isLE →
        (List.compareLex compareIdentifiers a c).isLE := Std.TransCmp.isLE_trans
    cases a <;> cases b <;> cases c <;>
      first
      | rfl
      | exact absurd hab Bool.false_ne_true
      | exact absurd hbc Bool.false_ne_true
      | exact hnames hab hbc

instance : Std.TransCmp compareNumbers :=
  inferInstanceAs (Std.TransCmp (compareLex (compareOn fun v : Version => v.major.toNat)
    (compareLex (compareOn fun v : Version => v.minor.toNat) (compareOn fun v : Version => v.patch.toNat))))

/-- **Precedence is an order**, but for versions that differ in their build metadata only. -/
instance : Std.TransCmp precedence :=
  have : Std.TransCmp fun v w : Version => comparePre v.pre w.pre :=
    { eq_swap := Std.OrientedCmp.eq_swap, isLE_trans := Std.TransCmp.isLE_trans }
  inferInstanceAs (Std.TransCmp (compareLex compareNumbers fun v w : Version => comparePre v.pre w.pre))

/-! ### Numbers -/

theorem compareNumbers_eq_lt_iff {v w : Version} : compareNumbers v w = .lt ↔
    v.major.toNat < w.major.toNat ∨ v.major.toNat = w.major.toNat ∧ (v.minor.toNat < w.minor.toNat ∨
      v.minor.toNat = w.minor.toNat ∧ v.patch.toNat < w.patch.toNat) := by
  simp only [compareNumbers, Ordering.then_eq_lt, Nat.compare_eq_lt, Nat.compare_eq_eq]

theorem compareNumbers_eq_eq_iff {v w : Version} : compareNumbers v w = .eq ↔
    v.major.toNat = w.major.toNat ∧ v.minor.toNat = w.minor.toNat ∧ v.patch.toNat = w.patch.toNat := by
  simp only [compareNumbers, Ordering.then_eq_eq, Nat.compare_eq_eq]

theorem isLE_compareNumbers_iff {v w : Version} :
    (compareNumbers v w).isLE ↔ compareNumbers v w = .lt ∨ compareNumbers v w = .eq := Ordering.isLE_iff_eq_lt_or_eq_eq

theorem precedence_of_lt {v w : Version} (h : compareNumbers v w = .lt) : v.precedence w = .lt := by
  rw [precedence, h]
  rfl

/-- Versions without pre-releases are in the order of their numbers. -/
theorem precedence_of_pre_eq_nil {v w : Version} (hv : v.pre = []) (hw : w.pre = []) :
    v.precedence w = compareNumbers v w := by
  rw [precedence, hv, hw]
  exact Ordering.then_eq

/-- No pre-release is the latest: its numbers come first. -/
theorem isLE_compareNumbers_of_precedence {v w : Version} (h : (v.precedence w).isLE) : (compareNumbers v w).isLE := by
  unfold precedence at h
  cases hnumbers : compareNumbers v w with
  | lt => rfl
  | eq => rfl
  | gt => simp [hnumbers] at h

/-! ### What a bump does -/

/-- The number that a level raises. -/
def raised (v : Version) : Level → UInt64
  | .patch => v.patch
  | .minor => v.minor
  | .major => v.major

/-- The versions that a bump at a level can lead to: no identifiers, and zeros behind the number it raises. -/
inductive Shaped : Level → Version → Prop where
  | patch (major minor patch : UInt64) : Shaped .patch (plain major minor patch)
  | minor (major minor : UInt64) : Shaped .minor (plain major minor 0)
  | major (major : UInt64) : Shaped .major (plain major 0 0)

theorem Shaped.pre_eq_nil {level : Level} {v : Version} (h : Shaped level v) : v.pre = [] := by
  cases h <;> rfl

theorem increment?_eq_none_iff {n : UInt64} : increment? n = none ↔ n.toNat = 2 ^ 64 - 1 := by
  have hn : n.toNat < 2 ^ 64 := n.toNat_lt
  simp only [increment?, UInt64.size]
  split <;> simp <;> omega

theorem toNat_of_increment? {m n : UInt64} (h : increment? n = some m) : m.toNat = n.toNat + 1 := by
  unfold increment? at h
  split at h
  · cases h
    exact UInt64.toNat_ofNatLT ..
  · cases h

/-- A bump fails only where there is no larger number. -/
theorem bump?_eq_none_iff {v : Version} {level : Level} :
    v.bump? level = none ↔ (v.raised level).toNat = 2 ^ 64 - 1 := by
  rw [← increment?_eq_none_iff]
  cases level <;> simp [bump?, raised]

variable {v w next later : Version} {level : Level}

theorem shaped_of_bump? (h : v.bump? level = some next) : Shaped level next := by
  cases level <;>
  · simp only [bump?, Option.map_eq_some_iff] at h
    obtain ⟨n, -, rfl⟩ := h
    constructor

/-- A bump raises the numbers. -/
theorem compareNumbers_of_bump? (h : v.bump? level = some next) : compareNumbers v next = .lt := by
  rw [compareNumbers_eq_lt_iff]
  cases level <;>
  · simp only [bump?, Option.map_eq_some_iff] at h
    obtain ⟨n, hn, rfl⟩ := h
    have := toNat_of_increment? hn
    simp [plain]
    omega

/-- A bump raises the numbers no more than its level asks for. -/
theorem compareNumbers_le_of_bump? (h : v.bump? level = some next) (hw : Shaped level w)
    (hlt : compareNumbers v w = .lt) : (compareNumbers next w).isLE := by
  rw [isLE_compareNumbers_iff, compareNumbers_eq_lt_iff, compareNumbers_eq_eq_iff]
  rw [compareNumbers_eq_lt_iff] at hlt
  cases hw <;>
  · simp only [bump?, Option.map_eq_some_iff] at h
    obtain ⟨n, hn, rfl⟩ := h
    have := toNat_of_increment? hn
    simp [plain] at hlt ⊢
    omega

theorem precedence_le_of_bump? (h : v.bump? level = some next) (hw : Shaped level w)
    (hlt : compareNumbers v w = .lt) : (next.precedence w).isLE := by
  rw [precedence_of_pre_eq_nil (shaped_of_bump? h).pre_eq_nil hw.pre_eq_nil]
  exact compareNumbers_le_of_bump? h hw hlt

/-- Bumps keep the order. -/
theorem precedence_le_of_bumps (h : (v.precedence w).isLE) (hv : v.bump? level = some next)
    (hw : w.bump? level = some later) : (next.precedence later).isLE := by
  have hlt : compareNumbers v later = .lt :=
    Std.TransCmp.lt_of_isLE_of_lt (isLE_compareNumbers_of_precedence h) (compareNumbers_of_bump? hw)
  exact precedence_le_of_bump? hv (shaped_of_bump? hw) hlt

/-- **A bump is the least increase that its level asks for, it keeps the order, and it fails only where there is
no larger number.** -/
theorem bump?_least (v : Version) (level : Level) :
    (v.bump? level = none ↔ (v.raised level).toNat = 2 ^ 64 - 1) ∧
      (∀ next, v.bump? level = some next → v.precedence next = .lt ∧ Shaped level next ∧ compareNumbers v next = .lt ∧
        ∀ w, Shaped level w → compareNumbers v w = .lt → (next.precedence w).isLE) ∧
      ∀ w next later, (v.precedence w).isLE → v.bump? level = some next → w.bump? level = some later →
        (next.precedence later).isLE :=
  ⟨bump?_eq_none_iff,
    fun _ h => ⟨precedence_of_lt (compareNumbers_of_bump? h), shaped_of_bump? h, compareNumbers_of_bump? h,
      fun _ hw hlt => precedence_le_of_bump? h hw hlt⟩,
    fun _ _ _ hle hv hw => precedence_le_of_bumps hle hv hw⟩

/-- The patch behind a pre-release is not its release but the one after it. -/
theorem bump?_least_pre :
    bump? ⟨1, 2, 3, ["rc", "1"], []⟩ .patch = some (plain 1 2 4) ∧
      precedence ⟨1, 2, 3, ["rc", "1"], []⟩ (plain 1 2 4) = .lt ∧
      (∀ w, Shaped .patch w → compareNumbers ⟨1, 2, 3, ["rc", "1"], []⟩ w = .lt → ((plain 1 2 4).precedence w).isLE) ∧
      precedence ⟨1, 2, 3, ["rc", "1"], []⟩ (plain 1 2 3) = .lt ∧ bump? (plain 1 2 3) .patch = some (plain 1 2 4) ∧
      ((plain 1 2 4).precedence (plain 1 2 4)).isLE := by
  obtain ⟨-, hleast, hmono⟩ := bump?_least ⟨1, 2, 3, ["rc", "1"], []⟩ .patch
  have hbump : bump? ⟨1, 2, 3, ["rc", "1"], []⟩ .patch = some (plain 1 2 4) := by decide +kernel
  have hrelease : precedence ⟨1, 2, 3, ["rc", "1"], []⟩ (plain 1 2 3) = .lt := by decide +kernel
  have hbump' : bump? (plain 1 2 3) .patch = some (plain 1 2 4) := by decide +kernel
  obtain ⟨hlt, -, -, hle⟩ := hleast _ hbump
  exact ⟨hbump, hlt, hle, hrelease, hbump', hmono _ _ _ (by rw [hrelease]; rfl) hbump hbump'⟩

end Version
end ManifestBump

import ManifestBump.Proofs.Text.NaturalOrder
import ManifestBump.Proofs.Version.Grammar
import ManifestBump.Proofs.Version.Precedence

/-! Versions in the order of their names.

Names are compared number by number, so those of versions with other numbers are in the order of the versions, in
shortened forms too. The rest of a name counts another way than the rest of a version does: pre-releases have the
longer names, so they come behind their release (`compareNamesFrom_release`), and an identifier in which letters and
digits meet is not compared as a whole. Between pre-releases the orders agree where the identifiers that make the
difference are numbers, or letters only (`compareNamesFrom_pre`). -/
namespace ManifestBump
open Text

namespace Version
variable {v w : Version} {s t rest : List Char}

/-! ### Identifiers -/

/-- A number, or letters only. -/
def IsSimple (name : String) : Prop := (∀ c ∈ name.toList, c.isDigit = true) ∨ ∀ c ∈ name.toList, c.isAlpha = true

/-- The first two identifiers that differ are simple. -/
def Comparable : List String → List String → Prop
  | a :: as, b :: bs => (a = b → Comparable as bs) ∧ (a ≠ b → IsSimple a ∧ IsSimple b)
  | _, _ => True

theorem IsIdentifier.ne_nil {part : Part} {name : String} (h : IsIdentifier part name) : name.toList ≠ [] :=
  fun heq => h.ne_empty (String.toList_inj.mp heq)

/-- Digits alone are a numeral. -/
theorem IsIdentifier.numeral {name : String} (h : IsIdentifier .pre name)
    (hdigits : ∀ c ∈ name.toList, c.isDigit = true) : Numeral name.toList (Nat.ofDigitChars 10 name.toList 0) where
  ne_nil := h.ne_nil
  isDigit := hdigits
  lead hzero := by
    rw [h.lead rfl hdigits hzero]
    rfl
  value := rfl

/-- Only the same identifiers are alike. -/
theorem eq_of_compareIdentifiers {a b : String} (ha : IsIdentifier .pre a) (hb : IsIdentifier .pre b)
    (h : compareIdentifiers a b = .eq) : a = b := by
  unfold compareIdentifiers at h
  split at h
  · rename_i hda hdb
    have hnumeral := ha.numeral (List.all_eq_true.mp hda)
    rw [Nat.compare_eq_eq.mp h] at hnumeral
    exact String.toList_inj.mp ((numeral_iff.mp hnumeral).trans
      (numeral_iff.mp (hb.numeral (List.all_eq_true.mp hdb))).symm)
  · cases h
  · cases h
  · exact String.toList_inj.mp (eq_of_compareChars h)

/-- Simple identifiers are in the order of their names. -/
theorem compareNamesFrom_simple {a b : String} (ha : IsIdentifier .pre a) (hb : IsIdentifier .pre b)
    (hsa : IsSimple a) (hsb : IsSimple b) (hs : Low s) (ht : Low t) (h : compareIdentifiers a b = .lt) :
    compareNamesFrom .other (a.toList ++ s) (b.toList ++ t) = .lt := by
  have hletters : ∀ {name : String}, IsIdentifier .pre name → (∀ c ∈ name.toList, c.isAlpha = true) →
      name.toList.all Char.isDigit = false := by
    intro name hname hall
    obtain ⟨x, rest, hcons⟩ := List.exists_cons_of_ne_nil hname.ne_nil
    rw [hcons, List.all_cons, isDigit_of_isAlpha (hall x (by rw [hcons]; exact List.mem_cons_self)), Bool.false_and]
  unfold compareIdentifiers at h
  rcases hsa with hda | hla <;> rcases hsb with hdb | hlb
  · rw [List.all_eq_true.mpr hda, List.all_eq_true.mpr hdb] at h
    rw [compareNamesFrom_numerals (ha.numeral hda) (hb.numeral hdb) hs.stops ht.stops]
    exact Ordering.then_eq_lt.mpr (.inl h)
  · obtain ⟨x, xs, hx⟩ := List.exists_cons_of_ne_nil ha.ne_nil
    obtain ⟨y, ys, hy⟩ := List.exists_cons_of_ne_nil hb.ne_nil
    have hdigit := isDigit_iff.mp (hda x (by rw [hx]; exact List.mem_cons_self))
    have hletter := hlb y (by rw [hy]; exact List.mem_cons_self)
    have := isAlpha_code hletter
    rw [hx, hy]
    exact compareNamesFrom_of_lt (by omega) (isDigit_of_isAlpha hletter) _ _
  · rw [hletters ha hla, List.all_eq_true.mpr hdb] at h
    cases h
  · rw [hletters ha hla, hletters hb hlb] at h
    exact compareNamesFrom_letters hla hlb hs h

/-! ### Build metadata -/

theorem low_build (build : List String) : Low (tagged '+' build) := by
  unfold tagged
  split
  · exact low_nil
  · exact low_cons (by decide) _

/-- Build metadata comes in front of further identifiers. -/
theorem compareNamesFrom_build (build : List String) {d : Char} (hd : ('+').toNat < d.toNat)
    (hdigit : d.isDigit = false) (t : List Char) : compareNamesFrom .other (tagged '+' build) (d :: t) = .lt := by
  unfold tagged
  split
  · exact compareNamesFrom_nil d t
  · exact compareNamesFrom_of_lt hd hdigit _ _

/-! ### Pre-releases -/

/-- Further identifiers, each behind its dot. -/
def further : List String → List Char → List Char
  | [], rest => rest
  | name :: names, rest => '.' :: (name.toList ++ further names rest)

theorem dotted_append (name : String) (names : List String) (rest : List Char) :
    dotted (name :: names) ++ rest = name.toList ++ further names rest := by
  induction names generalizing name with
  | nil => simp [dotted, further]
  | cons next names ih => rw [dotted_cons name (List.cons_ne_nil _ _), List.append_assoc, List.cons_append, ih, further]

theorem low_further (names : List String) (h : Low rest) : Low (further names rest) := by
  cases names with
  | nil => exact h
  | cons name names => exact low_cons (by decide) _

/-- The first identifiers that differ decide, if they are simple. -/
theorem compareNamesFrom_further {as bs : List String} (has : ∀ name ∈ as, IsIdentifier .pre name)
    (hbs : ∀ name ∈ bs, IsIdentifier .pre name) (hcomparable : Comparable as bs)
    (h : List.compareLex compareIdentifiers as bs = .lt) (build build' : List String) :
    compareNamesFrom .other (further as (tagged '+' build)) (further bs (tagged '+' build')) = .lt := by
  induction as generalizing bs with
  | nil =>
    cases bs with
    | nil => cases h
    | cons b bs => exact compareNamesFrom_build build (by decide) (by decide) _
  | cons a as ih =>
    cases bs with
    | nil => cases h
    | cons b bs =>
      have ha := has a List.mem_cons_self
      have hb := hbs b List.mem_cons_self
      have hlow := low_further as (low_build build)
      have hlow' := low_further bs (low_build build')
      rw [List.compareLex_cons_cons, Ordering.then_eq_lt] at h
      rw [further, further, compareNamesFrom_same]
      by_cases hab : a = b
      · subst hab
        have hsame : compareIdentifiers a a = .eq := Std.ReflCmp.compare_self
        have hrest : List.compareLex compareIdentifiers as bs = .lt := by simpa [hsame] using h
        rw [compareNamesFrom_append a.toList _ hlow.stops hlow'.stops]
        exact ih (fun name hname => has name (List.mem_cons_of_mem _ hname))
          (fun name hname => hbs name (List.mem_cons_of_mem _ hname)) (hcomparable.1 rfl) hrest
      · have hlt : compareIdentifiers a b = .lt := by
          rcases h with h | ⟨h, -⟩
          · exact h
          · exact absurd (eq_of_compareIdentifiers ha hb h) hab
        obtain ⟨hsa, hsb⟩ := hcomparable.2 hab
        exact compareNamesFrom_simple ha hb hsa hsb hlow hlow' hlt

/-- What stands behind the numbers of a version. -/
def tags (v : Version) : List Char := tagged '-' v.pre ++ tagged '+' v.build

theorem tags_of_pre {name : String} {names : List String} (h : v.pre = name :: names) :
    v.tags = '-' :: (name.toList ++ further names (tagged '+' v.build)) := by
  rw [tags, h, ← dotted_append]
  rfl

theorem stops_tags (v : Version) : Stops Char.isDigit v.tags :=
  stops_tagged rfl v.pre (low_build v.build).stops

/-- The name of a release comes in front of those of its pre-releases. -/
theorem compareNamesFrom_release (hv : v.pre = []) (hw : w.pre ≠ []) :
    compareNamesFrom .other v.tags w.tags = .lt := by
  obtain ⟨name, names, hpre⟩ := List.exists_cons_of_ne_nil hw
  rw [tags_of_pre hpre, tags, hv]
  exact compareNamesFrom_build v.build (by decide) (by decide) _

/-- Pre-releases are in the order of their names, if their identifiers are comparable. -/
theorem compareNamesFrom_pre (hv : v.WellFormed) (hw : w.WellFormed) (hpre : v.pre ≠ []) (hpre' : w.pre ≠ [])
    (hcomparable : Comparable v.pre w.pre) (h : comparePre v.pre w.pre = .lt) :
    compareNamesFrom .other v.tags w.tags = .lt := by
  obtain ⟨a, as, ha⟩ := List.exists_cons_of_ne_nil hpre
  obtain ⟨b, bs, hb⟩ := List.exists_cons_of_ne_nil hpre'
  have has := hv.pre
  have hbs := hw.pre
  rw [ha] at has hcomparable h
  rw [hb] at hbs hcomparable h
  have hfurther := compareNamesFrom_further has hbs hcomparable h v.build w.build
  rw [further, further, compareNamesFrom_same] at hfurther
  rw [tags_of_pre ha, tags_of_pre hb, compareNamesFrom_same]
  exact hfurther

/-! ### Numbers -/

/-- What stands behind the second number of a version: nothing, or the third number. -/
inductive BehindMinor (v : Version) : List Char → Prop where
  | nothing (hpatch : v.patch.toNat = 0) (hpre : v.pre = []) : BehindMinor v []
  | patch {z : List Char} (hz : Numeral z v.patch.toNat) : BehindMinor v ('.' :: (z ++ v.tags))

/-- What stands behind the first number of a version: nothing, or the second number. -/
inductive BehindMajor (v : Version) : List Char → Prop where
  | nothing (hminor : v.minor.toNat = 0) (hpatch : v.patch.toNat = 0) (hpre : v.pre = []) : BehindMajor v []
  | minor {y rest : List Char} (hy : Numeral y v.minor.toNat) (hrest : BehindMinor v rest) :
      BehindMajor v ('.' :: (y ++ rest))

theorem Spelled.exists_behind {body : List Char} (h : Spelled body v) :
    ∃ x rest, body = x ++ rest ∧ Numeral x v.major.toNat ∧ BehindMajor v rest := by
  cases h with
  | major hx => exact ⟨_, [], (List.append_nil _).symm, hx, .nothing rfl rfl rfl⟩
  | minor hx hy => exact ⟨_, _, by rw [List.append_nil], hx, .minor hy (.nothing rfl rfl)⟩
  | full hx hy hz hv => exact ⟨_, _, rfl, hx, .minor hy (.patch hz)⟩

theorem BehindMinor.stops (h : BehindMinor v rest) : Stops Char.isDigit rest := by
  cases h with
  | nothing => exact stops_nil
  | patch => exact stops_cons_iff.mpr rfl

theorem BehindMajor.stops (h : BehindMajor v rest) : Stops Char.isDigit rest := by
  cases h with
  | nothing => exact stops_nil
  | minor => exact stops_cons_iff.mpr rfl

/-- A version whose name comes first: its numbers are smaller, or they are the same and what stands behind them
comes first. -/
def Before (v w : Version) : Prop :=
  compareNumbers v w = .lt ∨ compareNumbers v w = .eq ∧ w.pre ≠ [] ∧ compareNamesFrom .other v.tags w.tags = .lt

theorem before_iff : Before v w ↔ v.major.toNat < w.major.toNat ∨ v.major.toNat = w.major.toNat ∧
    (v.minor.toNat < w.minor.toNat ∨ v.minor.toNat = w.minor.toNat ∧ (v.patch.toNat < w.patch.toNat ∨
      v.patch.toNat = w.patch.toNat ∧ w.pre ≠ [] ∧ compareNamesFrom .other v.tags w.tags = .lt)) := by
  rw [Before, compareNumbers_eq_lt_iff, compareNumbers_eq_eq_iff]
  tauto

/-- A number decides if what stands behind it does. -/
theorem compareNamesFrom_number {x y : List Char} {m n : Nat} (hx : Numeral x m) (hy : Numeral y n)
    (hs : Stops Char.isDigit s) (ht : Stops Char.isDigit t)
    (h : m < n ∨ m = n ∧ compareNamesFrom .other s t = .lt) : compareNamesFrom .other (x ++ s) (y ++ t) = .lt := by
  rw [compareNamesFrom_numerals hx hy hs ht, Ordering.then_eq_lt, Nat.compare_eq_lt, Nat.compare_eq_eq]
  exact h

theorem compareNamesFrom_behindMinor (hs : BehindMinor v s) (ht : BehindMinor w t)
    (h : v.patch.toNat < w.patch.toNat ∨
      v.patch.toNat = w.patch.toNat ∧ w.pre ≠ [] ∧ compareNamesFrom .other v.tags w.tags = .lt) :
    compareNamesFrom .other s t = .lt := by
  cases ht with
  | nothing hpatch hpre =>
    rcases h with h | ⟨-, hne, -⟩
    · omega
    · exact absurd hpre hne
  | patch hz =>
    cases hs with
    | nothing => exact compareNamesFrom_nil _ _
    | patch hz' =>
      rw [compareNamesFrom_same]
      exact compareNamesFrom_number hz' hz (stops_tags v) (stops_tags w) (h.imp_right fun h => ⟨h.1, h.2.2⟩)

theorem compareNamesFrom_behindMajor (hs : BehindMajor v s) (ht : BehindMajor w t)
    (h : v.minor.toNat < w.minor.toNat ∨ v.minor.toNat = w.minor.toNat ∧ (v.patch.toNat < w.patch.toNat ∨
      v.patch.toNat = w.patch.toNat ∧ w.pre ≠ [] ∧ compareNamesFrom .other v.tags w.tags = .lt)) :
    compareNamesFrom .other s t = .lt := by
  cases ht with
  | nothing hminor hpatch hpre =>
    rcases h with h | ⟨-, h | ⟨-, hne, -⟩⟩
    · omega
    · omega
    · exact absurd hpre hne
  | minor hy hrest =>
    cases hs with
    | nothing => exact compareNamesFrom_nil _ _
    | minor hy' hrest' =>
      rw [compareNamesFrom_same]
      exact compareNamesFrom_number hy' hy hrest'.stops hrest.stops
        (h.imp_right fun h => ⟨h.1, compareNamesFrom_behindMinor hrest' hrest h.2⟩)

/-- **The version that comes first has the name that comes first**, in whatever form the two are written. -/
theorem compareNamesFrom_spelled {body body' : List Char} (hv : Spelled body v) (hw : Spelled body' w)
    (h : Before v w) : compareNamesFrom .other body body' = .lt := by
  obtain ⟨x, rest, rfl, hx, hrest⟩ := hv.exists_behind
  obtain ⟨y, rest', rfl, hy, hrest'⟩ := hw.exists_behind
  exact compareNamesFrom_number hx hy hrest.stops hrest'.stops
    ((before_iff.mp h).imp_right fun h => ⟨h.1, compareNamesFrom_behindMajor hrest hrest' h.2⟩)

/-! ### Precedence -/

/-- Versions that are in the order of their names: with the same numbers, both are pre-releases with comparable
identifiers, or neither is one. -/
structure Aligned (v w : Version) : Prop where
  pre_iff : compareNumbers v w = .eq → (v.pre = [] ↔ w.pre = [])
  comparable : compareNumbers v w = .eq → Comparable v.pre w.pre

/-- Precedence is the order of names, for versions that are in the order of their names. -/
theorem before_of_precedence (hv : v.WellFormed) (hw : w.WellFormed) (haligned : Aligned v w)
    (h : v.precedence w = .lt) : Before v w := by
  rcases Ordering.then_eq_lt.mp h with hnumbers | ⟨hnumbers, hlt⟩
  · exact .inl hnumbers
  · have hiff := haligned.pre_iff hnumbers
    have hpre : v.pre ≠ [] := by
      intro hnil
      rw [hnil, hiff.mp hnil] at hlt
      cases hlt
    have hpre' : w.pre ≠ [] := fun hnil => hpre (hiff.mpr hnil)
    exact .inr ⟨hnumbers, hpre', compareNamesFrom_pre hv hw hpre hpre' (haligned.comparable hnumbers) hlt⟩

/-- Pre-releases come behind their release. -/
theorem before_of_pre (hnumbers : compareNumbers v w = .eq) (hv : v.pre = []) (hw : w.pre ≠ []) : Before v w :=
  .inr ⟨hnumbers, hw, compareNamesFrom_release hv hw⟩

end Version

/-! ### Names with a mark -/

namespace Release
variable {text text' : String} {r r' : Release}

/-- The mark does not count where both names have it, or neither. -/
theorem compareNames_of_before (h : Spelled text.toList r) (h' : Spelled text'.toList r')
    (hmarked : r.marked = r'.marked) (hbefore : r.version.Before r'.version) : compareNames text text' = .lt := by
  obtain ⟨body, htext, hbody⟩ := h
  obtain ⟨body', htext', hbody'⟩ := h'
  have hlt := Version.compareNamesFrom_spelled hbody hbody' hbefore
  rw [compareNames, htext, htext', hmarked]
  cases r'.marked with
  | false => exact hlt
  | true => exact (compareNamesFrom_same .other 'v' body body').trans hlt

/-- Names with a mark come behind all others. -/
theorem compareNames_of_marked (h : Spelled text.toList r) (h' : Spelled text'.toList r') (hr : r.marked = false)
    (hr' : r'.marked = true) : compareNames text text' = .lt := by
  obtain ⟨body, htext, hbody⟩ := h
  obtain ⟨body', htext', -⟩ := h'
  obtain ⟨d, rest, rfl, hd⟩ := exists_digit_of_spelled hbody
  have hcode : d.toNat < ('v').toNat := Nat.lt_of_le_of_lt (isDigit_iff.mp hd).2 (by decide)
  rw [compareNames, htext, htext', hr, hr']
  exact compareNamesFrom_of_lt hcode (by decide) _ _

end Release
end ManifestBump

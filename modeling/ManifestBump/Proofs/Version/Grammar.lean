import ManifestBump.Proofs.Except
import ManifestBump.Proofs.Text.Cut
import ManifestBump.Proofs.Text.Numeral
import ManifestBump.Version.Reader

/-! The texts of versions.

A version in full has one text, the one it is written with, if its identifiers are valid, and the strict reader
accepts that text alone (`Version.parse_eq_ok_iff`). Releases are also written with one or two numbers
(`Release.Spelled`). Filling those up to three numbers neither makes a version of any other text nor takes
one away, so a text reads as a release if and only if it spells that release (`Release.parse_iff_spelled`). -/
namespace ManifestBump
open Text

namespace Version

/-! ### Versions and their texts -/

/-- An identifier: ASCII letters, digits and hyphens. Those of pre-releases that are digits only are
numbers, so they have no leading zero. -/
structure IsIdentifier (part : Part) (name : String) : Prop where
  ne_empty : name ≠ ""
  chars : ∀ c ∈ name.toList, c.isAlphanum = true ∨ c = '-'
  lead : part = .pre → (∀ c ∈ name.toList, c.isDigit = true) → name.toList.head? = some '0' → name = "0"

/-- Valid identifiers are all a version needs. -/
structure WellFormed (v : Version) : Prop where
  pre : ∀ name ∈ v.pre, IsIdentifier .pre name
  build : ∀ name ∈ v.build, IsIdentifier .build name

/-- Identifiers with dots between them. -/
def dotted (names : List String) : List Char := ['.'].intercalate (names.map String.toList)

/-- Identifiers behind their mark, if there are any. -/
def tagged (mark : Char) (names : List String) : List Char := if names.isEmpty then [] else mark :: dotted names

/-- The texts that stand for a version: one number, two numbers, or three numbers and identifiers. -/
inductive Spelled : List Char → Version → Prop where
  | major {x : List Char} {major : UInt64} (hx : Numeral x major.toNat) : Spelled x (plain major 0 0)
  | minor {x y : List Char} {major minor : UInt64} (hx : Numeral x major.toNat) (hy : Numeral y minor.toNat) :
      Spelled (x ++ '.' :: y) (plain major minor 0)
  | full {x y z : List Char} {v : Version} (hx : Numeral x v.major.toNat) (hy : Numeral y v.minor.toNat)
      (hz : Numeral z v.patch.toNat) (hv : v.WellFormed) :
      Spelled (x ++ '.' :: (y ++ '.' :: (z ++ (tagged '-' v.pre ++ tagged '+' v.build)))) v

theorem wellFormed_plain (major minor patch : UInt64) : (plain major minor patch).WellFormed :=
  ⟨List.forall_mem_nil _, List.forall_mem_nil _⟩

theorem Spelled.wellFormed {text : List Char} {v : Version} (h : Spelled text v) : v.WellFormed := by
  cases h with
  | major => exact wellFormed_plain ..
  | minor => exact wellFormed_plain ..
  | full _ _ _ hv => exact hv

theorem toList_text (v : Version) :
    v.text.toList = Nat.toDigits 10 v.major.toNat ++ '.' :: (Nat.toDigits 10 v.minor.toNat ++ '.' ::
      (Nat.toDigits 10 v.patch.toNat ++ (tagged '-' v.pre ++ tagged '+' v.build))) := by
  have hdotted : ∀ names, (identifiersText names).toList = dotted names := by
    intro names
    rw [identifiersText, String.toList_intercalate]
    rfl
  have htagged : ∀ (mark : Char) (front : String) (names : List String), front.toList = [mark] →
      (if names.isEmpty then "" else front ++ identifiersText names).toList = tagged mark names := by
    intro mark front names hfront
    unfold tagged
    split
    · rfl
    · rw [String.toList_append, hfront, hdotted, List.singleton_append]
  simp only [text, String.toList_append, Nat.toList_repr, htagged '-' "-" v.pre rfl, htagged '+' "+" v.build rfl]
  simp

theorem toList_text_major (major : UInt64) :
    (plain major 0 0).text.toList = Nat.toDigits 10 major.toNat ++ ['.', '0', '.', '0'] := by
  simp [toList_text, plain, tagged, Nat.toDigits_zero]

theorem toList_text_minor (major minor : UInt64) :
    (plain major minor 0).text.toList =
      Nat.toDigits 10 major.toNat ++ '.' :: (Nat.toDigits 10 minor.toNat ++ ['.', '0']) := by
  simp [toList_text, plain, tagged, Nat.toDigits_zero]

/-! ### Numbers -/

theorem isDigit_eq (c : Char) : isDigit c = c.isDigit := by
  simp [isDigit, Char.isDigit, Char.le_def]

theorem takeWhile_isDigit (text : List Char) : text.takeWhile isDigit = text.takeWhile Char.isDigit :=
  takeWhile_congr fun c _ => isDigit_eq c

theorem dropWhile_isDigit (text : List Char) : text.dropWhile isDigit = text.dropWhile Char.isDigit :=
  dropWhile_congr fun c _ => isDigit_eq c

/-- **A number is read up to whatever is no digit**, if it stands there as it is printed. -/
theorem number_eq_ok_iff {part : Part} {text rest : List Char} {n : UInt64} :
    number part text = .ok (n, rest) ↔ text = Nat.toDigits 10 n.toNat ++ rest ∧ Stops Char.isDigit rest := by
  constructor
  · intro h
    unfold number at h
    simp only [takeWhile_isDigit, dropWhile_isDigit] at h
    split at h
    · split at h <;> cases h
    · rename_i d more hdigits
      split at h
      · cases h
      · rename_i hlead
        split at h
        · rename_i hlt
          obtain ⟨rfl, rfl⟩ : UInt64.ofNatLT (decimal (text.takeWhile Char.isDigit)) hlt = n ∧
              text.dropWhile Char.isDigit = rest := by simpa using h
          have hnumeral : Numeral (text.takeWhile Char.isDigit) (decimal (text.takeWhile Char.isDigit)) := by
            refine ⟨by simp [hdigits], fun c hc => List.mem_takeWhile_imp hc, fun hzero => ?_, rfl⟩
            rw [hdigits] at hzero ⊢
            obtain rfl : d = '0' := by simpa using hzero
            simpa using hlead
          rw [UInt64.toNat_ofNatLT, ← numeral_iff.mp hnumeral]
          exact ⟨List.takeWhile_append_dropWhile.symm, stops_dropWhile text⟩
        · cases h
  · rintro ⟨rfl, hrest⟩
    have hnumeral := numeral_toDigits n.toNat
    unfold number
    simp only [takeWhile_isDigit, dropWhile_isDigit, takeWhile_append hnumeral.isDigit hrest,
      dropWhile_append hnumeral.isDigit hrest]
    obtain ⟨d, more, hdigits⟩ := List.exists_cons_of_ne_nil hnumeral.ne_nil
    have hlead : ¬(d = '0' ∧ more ≠ []) := by
      rintro ⟨rfl, hmore⟩
      have := hnumeral.lead (by rw [hdigits]; rfl)
      rw [hdigits] at this
      exact hmore (List.cons.inj this).2
    have hvalue : decimal (d :: more) = n.toNat := by rw [← hdigits]; exact hnumeral.value
    have hlt : decimal (d :: more) < UInt64.size := by
      rw [hvalue]
      exact n.toNat_lt_size
    have hn : UInt64.ofNatLT (decimal (d :: more)) hlt = n := UInt64.toNat_inj.mp (by rw [UInt64.toNat_ofNatLT, hvalue])
    simp only [hdigits, hlead, if_false, dif_pos hlt, hn]

theorem dot_eq_ok_iff {part : Part} {text rest : List Char} : dot part text = .ok rest ↔ text = '.' :: rest := by
  unfold dot
  split <;> simp_all

/-! ### Identifiers -/

/-- A character of identifiers, or a dot between them. -/
def isBody (c : Char) : Bool := isIdentifierChar c || c == '.'

theorem isIdentifierChar_iff {c : Char} : isIdentifierChar c = true ↔ c.isAlphanum = true ∨ c = '-' := by
  simp [isIdentifierChar]

theorem identifierFault_eq_none_iff {part : Part} {identifier : List Char}
    (h : ∀ c ∈ identifier, isIdentifierChar c = true) :
    identifierFault part identifier = none ↔ IsIdentifier part (String.ofList identifier) := by
  have hempty : String.ofList identifier = "" ↔ identifier = [] := by
    rw [← String.toList_inj, String.toList_ofList]
    rfl
  have hzero : String.ofList identifier = "0" ↔ identifier = ['0'] := by
    rw [← String.toList_inj, String.toList_ofList]
    rfl
  have hdigits : identifier.all isDigit = true ↔ ∀ c ∈ identifier, c.isDigit = true := by
    simp [List.all_eq_true, isDigit_eq]
  unfold identifierFault
  constructor
  · intro hnone
    split at hnone
    · cases hnone
    rename_i hne
    split at hnone
    · cases hnone
    rename_i hlead
    refine ⟨fun heq => hne (by simp [hempty.mp heq]), fun c hc => ?_, fun hpart hall hhead => ?_⟩
    · rw [String.toList_ofList] at hc
      exact isIdentifierChar_iff.mp (h c hc)
    · rw [String.toList_ofList] at hall hhead
      have hshort : ¬1 < identifier.length := fun hlong => hlead ⟨hpart, hdigits.mpr hall, hhead, hlong⟩
      rw [hzero]
      obtain ⟨rest, rfl⟩ := List.head?_eq_some_iff.mp hhead
      cases rest with
      | nil => rfl
      | cons d rest => simp at hshort
  · rintro ⟨hne, -, hlead⟩
    rw [String.toList_ofList] at hlead
    have hne' : ¬identifier.isEmpty = true := fun heq => hne (hempty.mpr (List.isEmpty_iff.mp heq))
    have hok : ¬(part = .pre ∧ identifier.all isDigit = true ∧ identifier.head? = some '0' ∧ 1 < identifier.length) := by
      rintro ⟨hpart, hall, hhead, hlong⟩
      rw [hzero.mp (hlead hpart (hdigits.mp hall) hhead)] at hlong
      exact absurd hlong (by decide)
    rw [if_neg hne', if_neg hok]

theorem dotted_cons (name : String) {names : List String} (h : names ≠ []) :
    dotted (name :: names) = name.toList ++ '.' :: dotted names := by
  rw [dotted, List.map_cons, List.intercalate_cons_of_ne_nil (by simpa using h), List.append_assoc,
    List.singleton_append]
  rfl

theorem IsIdentifier.isBody {part : Part} {name : String} (h : IsIdentifier part name) :
    ∀ c ∈ name.toList, isBody c = true := fun c hc => by
  simp [Version.isBody, isIdentifierChar_iff.mpr (h.chars c hc)]

theorem isBody_of_mem_dotted {part : Part} {names : List String} (h : ∀ name ∈ names, IsIdentifier part name) :
    ∀ c ∈ dotted names, isBody c = true := by
  induction names with
  | nil => simp [dotted]
  | cons name names ih =>
    have hname := (h name List.mem_cons_self).isBody
    have hnames := ih fun other hother => h other (List.mem_cons_of_mem _ hother)
    by_cases hempty : names = []
    · subst hempty
      simpa [dotted] using hname
    · intro c hc
      rw [dotted_cons name hempty] at hc
      rcases List.mem_append.mp hc with hc | hc
      · exact hname c hc
      · rcases List.mem_cons.mp hc with rfl | hc
        · rfl
        · exact hnames c hc

theorem IsIdentifier.dot_not_mem {part : Part} {name : String} (h : IsIdentifier part name) : '.' ∉ name.toList := by
  intro hdot
  rcases h.chars '.' hdot with hdot | hdot <;> cases hdot

/-- What is read as identifiers, up to whatever is none of their characters. -/
theorem identifiers_eq_ok_iff {part : Part} {text rest : List Char} {names : List String} :
    identifiers part text = .ok (names, rest) ↔
      names ≠ [] ∧ (∀ name ∈ names, IsIdentifier part name) ∧ text = dotted names ++ rest ∧ Stops isBody rest := by
  unfold identifiers
  rw [show (fun c : Char => isIdentifierChar c || c == '.') = isBody from rfl]
  dsimp only
  constructor
  · intro h
    split at h
    · cases h
    rename_i hfound
    obtain ⟨rfl, rfl⟩ : ((text.takeWhile isBody).splitOn '.').map String.ofList = names ∧
        text.dropWhile isBody = rest := by simpa using h
    have hnames : ∀ name ∈ ((text.takeWhile isBody).splitOn '.').map String.ofList, IsIdentifier part name := by
      intro name hname
      obtain ⟨piece, hpiece, rfl⟩ := List.mem_map.mp hname
      refine (identifierFault_eq_none_iff fun c hc => ?_).mp (List.findSome?_eq_none_iff.mp hfound piece hpiece)
      obtain ⟨hdot, hchars⟩ := of_mem_splitOn hpiece
      have hbody := List.mem_takeWhile_imp (hchars c hc)
      have hne : c ≠ '.' := fun heq => hdot (heq ▸ hc)
      simpa [isBody, hne] using hbody
    have hdotted : dotted (((text.takeWhile isBody).splitOn '.').map String.ofList) = text.takeWhile isBody := by
      rw [dotted, List.map_map, show String.toList ∘ String.ofList = id by funext l; simp, List.map_id,
        List.intercalate_splitOn]
    refine ⟨by simp, hnames, ?_, stops_dropWhile text⟩
    rw [hdotted, List.takeWhile_append_dropWhile]
  · rintro ⟨hne, hnames, rfl, hrest⟩
    have hbody := isBody_of_mem_dotted hnames
    have hsplit : (dotted names).splitOn '.' = names.map String.toList := by
      rw [dotted, List.splitOn_intercalate '.' (fun l hl => ?_) (by simpa using hne)]
      obtain ⟨name, hname, rfl⟩ := List.mem_map.mp hl
      exact (hnames name hname).dot_not_mem
    have hfound : (names.map String.toList).findSome? (identifierFault part) = none := by
      rw [List.findSome?_eq_none_iff]
      intro piece hpiece
      obtain ⟨name, hname, rfl⟩ := List.mem_map.mp hpiece
      refine (identifierFault_eq_none_iff fun c hc => isIdentifierChar_iff.mpr ((hnames name hname).chars c hc)).mpr ?_
      rw [String.ofList_toList]
      exact hnames name hname
    have hback : (names.map String.toList).map String.ofList = names := by
      rw [List.map_map, show String.ofList ∘ String.toList = id by funext s; simp, List.map_id]
    rw [takeWhile_append hbody hrest, dropWhile_append hbody hrest, hsplit, hfound, hback]

/-- What is read behind a mark is written there, and it is valid. -/
theorem of_marked {mark : Char} {part before last : Part} {text rest : List Char} {names : List String}
    (h : marked mark part before text = .ok (names, last, rest)) :
    text = tagged mark names ++ rest ∧ ∀ name ∈ names, IsIdentifier part name := by
  cases text with
  | nil =>
    cases h
    simp [tagged]
  | cons c text =>
    simp only [marked] at h
    split at h
    · rename_i hc
      split at h
      · rename_i found behind hread
        cases h
        obtain ⟨hne, hnames, rfl, -⟩ := identifiers_eq_ok_iff.mp hread
        exact ⟨by simp [tagged, hne, hc], hnames⟩
      · cases h
    · cases h
      simp [tagged]

/-- Valid identifiers are read behind their mark. -/
theorem marked_tagged (mark : Char) (part before : Part) {rest : List Char} {names : List String}
    (hnames : ∀ name ∈ names, IsIdentifier part name) (hrest : Stops isBody rest) (hmark : rest.head? ≠ some mark) :
    ∃ last, marked mark part before (tagged mark names ++ rest) = .ok (names, last, rest) := by
  by_cases hempty : names = []
  · subst hempty
    cases rest with
    | nil => exact ⟨before, rfl⟩
    | cons c rest =>
      have hc : c ≠ mark := by simpa using hmark
      exact ⟨before, by simp [tagged, marked, hc]⟩
  · have hread := identifiers_eq_ok_iff.mpr ⟨hempty, hnames, rfl, hrest⟩
    exact ⟨part, by simp [tagged, hempty, marked, hread]⟩

/-! ### The strict reader -/

theorem stops_tagged {p : Char → Bool} {mark : Char} (hmark : p mark = false) (names : List String) {rest : List Char}
    (hrest : Stops p rest) : Stops p (tagged mark names ++ rest) := by
  unfold tagged
  split
  · exact hrest
  · exact stops_cons_iff.mpr hmark

/-- **A version in full has one text**, the one it is written with. -/
theorem parse_eq_ok_iff {text : List Char} {v : Version} :
    parse text = .ok v ↔ v.WellFormed ∧ text = v.text.toList := by
  rw [toList_text]
  constructor
  · intro h
    simp only [parse, bind_eq_ok_iff] at h
    obtain ⟨major, hmajor, behindMajor, hdot, minor, hminor, behindMinor, hdot', patch, hpatch, pre, hpre, build, hbuild,
      h⟩ := h
    split at h
    · rename_i hend
      cases h
      obtain ⟨htext, -⟩ := number_eq_ok_iff.mp hmajor
      obtain ⟨hminorText, -⟩ := number_eq_ok_iff.mp hminor
      obtain ⟨hpatchText, -⟩ := number_eq_ok_iff.mp hpatch
      obtain ⟨hpreText, hpreValid⟩ := of_marked hpre
      obtain ⟨hbuildText, hbuildValid⟩ := of_marked hbuild
      refine ⟨⟨hpreValid, hbuildValid⟩, ?_⟩
      rw [htext, dot_eq_ok_iff.mp hdot, hminorText, dot_eq_ok_iff.mp hdot', hpatchText, hpreText, hbuildText, hend,
        List.append_nil]
    · cases h
  · rintro ⟨hv, rfl⟩
    have hbehind : Stops Char.isDigit (tagged '-' v.pre ++ tagged '+' v.build) :=
      stops_tagged rfl v.pre (by simpa using stops_tagged rfl v.build stops_nil)
    have hbuild : Stops isBody (tagged '+' v.build) := by simpa using stops_tagged rfl v.build stops_nil
    have hmark : (tagged '+' v.build).head? ≠ some '-' := by unfold tagged; split <;> simp
    obtain ⟨last, hpre⟩ := marked_tagged '-' .pre .patch hv.pre hbuild hmark
    obtain ⟨last', hbuild⟩ := marked_tagged '+' .build last hv.build stops_nil (by simp)
    rw [List.append_nil] at hbuild
    have hdot : ∀ rest, Stops Char.isDigit ('.' :: rest) := fun _ => stops_cons_iff.mpr rfl
    simp only [parse, bind, Except.bind, number_eq_ok_iff.mpr ⟨rfl, hdot _⟩, dot, number_eq_ok_iff.mpr ⟨rfl, hbehind⟩, hpre, hbuild]

end Version

/-! ### Shortened forms -/

namespace Release

/-- The texts that stand for a release: those of its version, behind a `v` if it is marked. -/
def Spelled (text : List Char) (r : Release) : Prop :=
  ∃ body, text = (if r.marked then ['v'] else []) ++ body ∧ Version.Spelled body r.version

/-- A text without dots and marks, as a number is. -/
def Bare (text : List Char) : Prop := ∀ c ∈ text, c ≠ '.' ∧ c ≠ '-' ∧ c ≠ '+'

theorem bare_of_numeral {x : List Char} {n : Nat} (h : Numeral x n) : Bare x := by
  intro c hc
  have hdigit := h.isDigit c hc
  refine ⟨?_, ?_, ?_⟩ <;>
  · rintro rfl
    cases hdigit

theorem Bare.count_eq {x : List Char} (h : Bare x) : x.count '.' = 0 :=
  List.count_eq_zero.mpr fun hdot => (h '.' hdot).1 rfl

theorem Bare.any_eq {x : List Char} (h : Bare x) : (x.any fun c => c == '-' || c == '+') = false := by
  rw [List.any_eq_false]
  intro c hc
  simpa using (h c hc).2

theorem padded_major {x : List Char} (h : Bare x) : padded x = x ++ ['.', '0', '.', '0'] := by
  simp [padded, h.count_eq, h.any_eq]

theorem padded_minor {x y : List Char} (hx : Bare x) (hy : Bare y) :
    padded (x ++ '.' :: y) = x ++ '.' :: (y ++ ['.', '0']) := by
  have hcount : (x ++ '.' :: y).count '.' = 1 := by simp [hx.count_eq, hy.count_eq]
  simp [padded, hcount, hx.any_eq, hy.any_eq]

theorem padded_full (x y z : List Char) :
    padded (x ++ '.' :: (y ++ '.' :: z)) = x ++ '.' :: (y ++ '.' :: z) := by
  have hcount : ∃ n, (x ++ '.' :: (y ++ '.' :: z)).count '.' = n + 2 :=
    ⟨x.count '.' + y.count '.' + z.count '.', by simp; omega⟩
  obtain ⟨n, hn⟩ := hcount
  simp only [padded, hn]

theorem padded_of_not_bare {body : List Char} (h : (body.any fun c => c == '-' || c == '+') = true) :
    padded body = body := by
  simp only [padded, h]
  split <;> rfl

/-- Texts are cut at the first dot in one way only. -/
theorem cut_dot {x y s t : List Char} (hx : '.' ∉ x) (hy : '.' ∉ y) (h : x ++ '.' :: s = y ++ '.' :: t) :
    x = y ∧ s = t := by
  have hrun : ∀ {x : List Char}, '.' ∉ x → ∀ c ∈ x, (c != '.') = true := by
    intro x hx c hc
    have hne : c ≠ '.' := fun heq => hx (heq ▸ hc)
    simpa using hne
  obtain ⟨rfl, hbehind⟩ := cut_unique (p := (· != '.')) (hrun hx) (stops_cons_iff.mpr rfl) (hrun hy)
    (stops_cons_iff.mpr rfl) h
  exact ⟨rfl, (List.cons.inj hbehind).2⟩

theorem dot_not_mem_toDigits (n : Nat) : '.' ∉ Nat.toDigits 10 n :=
  fun hdot => ((bare_of_numeral (numeral_toDigits n)) '.' hdot).1 rfl

theorem eq_zero_of_toDigits {n : UInt64} (h : Nat.toDigits 10 n.toNat = ['0']) : n = 0 := by
  have hvalue := (numeral_toDigits n.toNat).value
  rw [h] at hvalue
  exact UInt64.toNat_inj.mp hvalue.symm

/-- A zero at the end is a number alone. -/
theorem eq_zero_of_append {n : UInt64} {pre build : List String}
    (h : Nat.toDigits 10 n.toNat ++ (Version.tagged '-' pre ++ Version.tagged '+' build) = ['0']) :
    n = 0 ∧ pre = [] ∧ build = [] := by
  have hempty : ∀ {mark : Char} {names : List String}, Version.tagged mark names = [] → names = [] := by
    intro mark names
    unfold Version.tagged
    split
    · rename_i hnames
      exact fun _ => List.isEmpty_iff.mp hnames
    · exact fun hnil => absurd hnil (List.cons_ne_nil _ _)
  obtain ⟨d, more, hdigits⟩ := List.exists_cons_of_ne_nil (numeral_toDigits n.toNat).ne_nil
  rw [hdigits, List.cons_append] at h
  obtain ⟨rfl, htail⟩ := List.cons.inj h
  obtain ⟨rfl, htags⟩ := List.append_eq_nil_iff.mp htail
  obtain ⟨hpre, hbuild⟩ := List.append_eq_nil_iff.mp htags
  exact ⟨eq_zero_of_toDigits hdigits, hempty hpre, hempty hbuild⟩

/-- A text has no dot, one dot, or more. -/
theorem dots_cases (body : List Char) : '.' ∉ body ∨ (∃ x y, body = x ++ '.' :: y ∧ '.' ∉ x ∧ '.' ∉ y) ∨
    ∃ x y z, body = x ++ '.' :: (y ++ '.' :: z) := by
  have hfree : ∀ {x : List Char}, (∀ c ∈ x, (c != '.') = true) → '.' ∉ x := by
    intro x hx hdot
    cases hx '.' hdot
  obtain ⟨x, behind, rfl, hx, hbehind⟩ := exists_cut (· != '.') body
  cases behind with
  | nil => exact .inl (by simpa using hfree hx)
  | cons c behind =>
    obtain rfl : c = '.' := by simpa using stops_cons_iff.mp hbehind
    obtain ⟨y, behind, rfl, hy, hbehind⟩ := exists_cut (· != '.') behind
    cases behind with
    | nil => exact .inr (.inl ⟨x, y, by rw [List.append_nil], hfree hx, hfree hy⟩)
    | cons d behind =>
      obtain rfl : d = '.' := by simpa using stops_cons_iff.mp hbehind
      exact .inr (.inr ⟨x, y, behind, rfl⟩)

/-- Filling up makes a version of no text but those that stand for one. -/
theorem spelled_of_parse_padded {body : List Char} {v : Version} (h : Version.parse (padded body) = .ok v) :
    Version.Spelled body v := by
  obtain ⟨hv, htext⟩ := Version.parse_eq_ok_iff.mp h
  rw [Version.toList_text] at htext
  have hfull : padded body = body → Version.Spelled body v := by
    intro hpadded
    rw [← hpadded, htext]
    exact .full (numeral_toDigits _) (numeral_toDigits _) (numeral_toDigits _) hv
  by_cases hmarks : (body.any fun c => c == '-' || c == '+') = true
  · exact hfull (padded_of_not_bare hmarks)
  have hbare : ∀ {x : List Char}, '.' ∉ x → (∀ c ∈ x, c ∈ body) → Bare x := by
    intro x hfree hmem c hc
    have hdot : c ≠ '.' := fun heq => hfree (heq ▸ hc)
    have hmark : ¬((c == '-' || c == '+') = true) :=
      fun hmark => hmarks (List.any_eq_true.mpr ⟨c, hmem c hc, hmark⟩)
    exact ⟨hdot, by simpa using hmark⟩
  obtain ⟨major, minor, patch, pre, build⟩ := v
  rcases dots_cases body with hx | ⟨x, y, rfl, hx, hy⟩ | ⟨x, y, z, rfl⟩
  · rw [padded_major (hbare hx fun c hc => hc)] at htext
    obtain ⟨rfl, hminor⟩ := cut_dot hx (dot_not_mem_toDigits _) htext
    obtain ⟨hzero, hpatch⟩ := cut_dot (s := ['0']) (show '.' ∉ ['0'] by decide) (dot_not_mem_toDigits _) hminor
    obtain rfl := eq_zero_of_toDigits hzero.symm
    obtain ⟨rfl, rfl, rfl⟩ := eq_zero_of_append hpatch.symm
    exact .major (numeral_toDigits _)
  · have hx' := hbare hx fun c hc => List.mem_append_left _ hc
    have hy' := hbare hy fun c hc => List.mem_append_right _ (List.mem_cons_of_mem _ hc)
    rw [padded_minor hx' hy'] at htext
    obtain ⟨rfl, hminor⟩ := cut_dot hx (dot_not_mem_toDigits _) htext
    obtain ⟨rfl, hpatch⟩ := cut_dot hy (dot_not_mem_toDigits _) hminor
    obtain ⟨rfl, rfl, rfl⟩ := eq_zero_of_append hpatch.symm
    exact .minor (numeral_toDigits _) (numeral_toDigits _)
  · exact hfull (padded_full x y z)

/-- Filling up takes no version away. -/
theorem parse_padded_of_spelled {body : List Char} {v : Version} (h : Version.Spelled body v) :
    Version.parse (padded body) = .ok v := by
  refine Version.parse_eq_ok_iff.mpr ⟨h.wellFormed, ?_⟩
  cases h with
  | major hx => rw [padded_major (bare_of_numeral hx), numeral_iff.mp hx, Version.toList_text_major]
  | minor hx hy =>
    rw [padded_minor (bare_of_numeral hx) (bare_of_numeral hy), numeral_iff.mp hx, numeral_iff.mp hy,
      Version.toList_text_minor]
  | full hx hy hz hv =>
    rw [padded_full, numeral_iff.mp hx, numeral_iff.mp hy, numeral_iff.mp hz, Version.toList_text]

/-- A text that stands for a version begins with a digit. -/
theorem exists_digit_of_spelled {body : List Char} {v : Version} (h : Version.Spelled body v) :
    ∃ d rest, body = d :: rest ∧ d.isDigit = true := by
  have hfirst : ∀ {x : List Char} {n : Nat}, Numeral x n → ∀ behind,
      ∃ d rest, x ++ behind = d :: rest ∧ d.isDigit = true := by
    intro x n hx behind
    obtain ⟨d, more, rfl⟩ := List.exists_cons_of_ne_nil hx.ne_nil
    exact ⟨d, more ++ behind, rfl, hx.isDigit d List.mem_cons_self⟩
  cases h with
  | major hx => simpa using hfirst hx []
  | minor hx hy => exact hfirst hx _
  | full hx hy hz hv => exact hfirst hx _

/-- What reads as a release spells it. -/
theorem spelled_of_parse {text : String} {r : Release} (h : parse text = .ok r) : Spelled text.toList r := by
  unfold parse at h
  split at h
  rename_i marked body hsplit
  split at h
  · rename_i v hv
    cases h
    refine ⟨body, ?_, spelled_of_parse_padded hv⟩
    split at hsplit
    · rename_i rest htext
      cases hsplit
      simpa using htext
    · cases hsplit
      rfl
  · cases h

theorem wellFormed_of_parse {text : String} {r : Release} (h : parse text = .ok r) : r.version.WellFormed := by
  obtain ⟨body, -, hbody⟩ := spelled_of_parse h
  exact hbody.wellFormed

/-- What spells a release reads as it. -/
theorem parse_of_spelled {text : String} {r : Release} (h : Spelled text.toList r) : parse text = .ok r := by
  obtain ⟨v, marked⟩ := r
  obtain ⟨body, htext, hbody⟩ := h
  have hv := parse_padded_of_spelled hbody
  unfold parse
  rw [htext]
  cases marked with
  | true => simp [hv]
  | false =>
    split
    rename_i marked body' hsplit
    split at hsplit
    · rename_i rest heq
      obtain ⟨d, more, rfl, hd⟩ := exists_digit_of_spelled hbody
      obtain ⟨rfl, -⟩ := List.cons.inj heq
      cases hd
    · cases hsplit
      simp [hv]

/-- **A text reads as a release if and only if it spells that release.** -/
theorem parse_iff_spelled (text : String) (r : Release) : parse text = .ok r ↔ Spelled text.toList r :=
  ⟨spelled_of_parse, parse_of_spelled⟩

theorem toList_text (r : Release) : r.text.toList = (if r.marked then ['v'] else []) ++ r.version.text.toList := by
  rw [text, String.toList_append]
  cases r.marked <;> rfl

/-- **A release with valid identifiers reads back from its text.** -/
theorem parse_text_of_wellFormed {r : Release} (h : r.version.WellFormed) : parse r.text = .ok r := by
  refine parse_of_spelled ⟨r.version.text.toList, toList_text r, ?_⟩
  rw [Version.toList_text]
  exact .full (numeral_toDigits _) (numeral_toDigits _) (numeral_toDigits _) h

end Release
end ManifestBump

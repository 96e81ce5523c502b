import ManifestBump.KeyPath
import ManifestBump.Proofs.Text.Cut

/-! Key paths and their dotted texts.

A text is cut at its dots, and joining the pieces with dots gives it back. One of the pieces is empty where a dot stands
in front, at the end or beside another one (`nil_mem_splitOn_iff`). So a text is read as the path whose keys it joins,
if those are keys (`parse_eq_ok_iff`), and paths and dotted texts belong together one by one (`parse_dotted`). -/
namespace ManifestBump
open Text

/-! ### Pieces between dots -/

namespace Text

/-- Where a piece between separators is empty: the first one tells of the front of the text, the others of the rest. -/
theorem splitOn_cases (a : Char) (text : List Char) : ∃ first others, text.splitOn a = first :: others ∧
    (first = [] ↔ text = [] ∨ text.head? = some a) ∧
    ([] ∈ others ↔ text.getLast? = some a ∨ [a, a] <:+: text) := by
  induction text with
  | nil => exact ⟨[], [], by simp, by simp, by simp⟩
  | cons c text ih =>
    obtain ⟨first, others, hsplit, hfirst, hothers⟩ := ih
    have hinfix : [a, a] <:+: c :: text ↔ (a = c ∧ text.head? = some a) ∨ [a, a] <:+: text := by
      rw [List.infix_cons_iff, List.cons_prefix_cons]
      cases text with
      | nil => simp
      | cons d text => simp [@eq_comm _ a d]
    rw [List.splitOn_cons_eq_if_modifyHead, hsplit]
    by_cases hc : c = a
    · subst hc
      refine ⟨[], first :: others, by simp, by simp, ?_⟩
      rw [List.mem_cons, eq_comm, hfirst, hothers, hinfix, List.getLast?_cons]
      cases text with
      | nil => simp
      | cons d text => grind
    · refine ⟨c :: first, others, by simp [hc], by simp [hc], ?_⟩
      rw [hothers, hinfix, List.getLast?_cons]
      cases text with
      | nil => simp [hc]
      | cons d text => grind

/-- A piece is empty where the text is, or where a separator stands in front, at the end or beside another one. -/
theorem nil_mem_splitOn_iff {a : Char} {text : List Char} : [] ∈ text.splitOn a ↔
    text = [] ∨ text.head? = some a ∨ text.getLast? = some a ∨ [a, a] <:+: text := by
  obtain ⟨first, others, hsplit, hfirst, hothers⟩ := splitOn_cases a text
  rw [hsplit, List.mem_cons, eq_comm, hfirst, hothers, or_assoc]

end Text

namespace KeyPath
variable {text : String} {path : KeyPath}

/-! ### What is read -/

/-- What a path can be made of: a key is not empty, and a dot would part it. -/
structure IsKey (key : String) : Prop where
  nonempty : key ≠ ""
  undivided : '.' ∉ key.toList

/-- A text with dots between other characters only. -/
structure IsDotted (text : String) : Prop where
  nonempty : text ≠ ""
  front : text.toList.head? ≠ some '.'
  back : text.toList.getLast? ≠ some '.'
  apart : ¬['.', '.'] <:+: text.toList

/-- The path of a list of keys is the one with these keys. -/
theorem ofSegments?_eq_some_iff {keys : List String} : ofSegments? keys = some path ↔ path.segments = keys := by
  constructor
  · exact segments_of_ofSegments?
  · rintro rfl
    obtain ⟨parents, leaf⟩ := path
    cases parents with
    | nil => rfl
    | cons key keys =>
      show some (KeyPath.mk (key :: keys ++ [leaf]).dropLast ((key :: keys ++ [leaf]).getLast (by simp))) = _
      simp only [List.dropLast_concat, List.getLast_concat]

theorem eq_of_segments {other : KeyPath} (h : path.segments = other.segments) : path = other := by
  have hother := ofSegments?_eq_some_iff.mpr h
  rw [ofSegments?_eq_some_iff.mpr rfl] at hother
  exact (Option.some.inj hother).symm

theorem exists_segments {keys : List String} (h : keys ≠ []) : ∃ path : KeyPath, path.segments = keys :=
  ⟨⟨keys.dropLast, keys.getLast h⟩, List.dropLast_append_getLast h⟩

/-- **A text is read as the pieces between its dots**, unless it is empty or one of them is. -/
theorem parse_cases (text : String) : ∃ path : KeyPath, path.segments = (text.toList.splitOn '.').map String.ofList ∧
    parse text = if text = "" then .error .empty
      else if [] ∈ text.toList.splitOn '.' then .error .emptySegment else .ok path := by
  have hne : (text.toList.splitOn '.').map String.ofList ≠ [] := by simp
  obtain ⟨path, hsegments⟩ := exists_segments hne
  have hpath := ofSegments?_eq_some_iff.mpr hsegments
  refine ⟨path, hsegments, ?_⟩
  simp only [parse, hpath, String.isEmpty_iff, List.any_eq_true, List.isEmpty_iff, exists_eq_right]

/-- The path of a text has the pieces of the text as keys, and none of them is empty. -/
theorem segments_of_parse (h : parse text = .ok path) :
    path.segments = (text.toList.splitOn '.').map String.ofList ∧ [] ∉ text.toList.splitOn '.' := by
  obtain ⟨found, hsegments, hparse⟩ := parse_cases text
  rw [hparse] at h
  split at h
  · cases h
  split at h
  · cases h
  rename_i hnone
  cases h
  exact ⟨hsegments, hnone⟩

/-- Keys of a path that was read hold no dot, and their characters are in the text. -/
theorem of_parse (h : parse text = .ok path) :
    ∀ key ∈ path.segments, '.' ∉ key.toList ∧ ∀ c ∈ key.toList, c ∈ text.toList := by
  intro key hkey
  rw [(segments_of_parse h).1] at hkey
  obtain ⟨piece, hpiece, rfl⟩ := List.mem_map.mp hkey
  rw [String.toList_ofList]
  exact of_mem_splitOn hpiece

/-- What is read is made of keys. -/
theorem isKey_of_parse (h : parse text = .ok path) : ∀ key ∈ path.segments, IsKey key := by
  intro key hkey
  obtain ⟨hsegments, hnone⟩ := segments_of_parse h
  refine ⟨?_, (of_parse h key hkey).1⟩
  rintro rfl
  rw [hsegments] at hkey
  obtain ⟨piece, hpiece, hempty⟩ := List.mem_map.mp hkey
  obtain rfl : piece = [] := by simpa using congrArg String.toList hempty
  exact hnone hpiece

/-! ### The text of a path -/

theorem toList_text (path : KeyPath) : path.text.toList = ['.'].intercalate (path.segments.map String.toList) := by
  rw [text, String.toList_intercalate]
  rfl

/-- The text of a path that was read is the text it was read from. -/
theorem text_of_parse (h : parse text = .ok path) : path.text = text := by
  have hback : ∀ pieces : List (List Char), (pieces.map String.ofList).map String.toList = pieces := fun pieces => by
    simp [Function.comp_def]
  apply String.toList_inj.mp
  rw [toList_text, (segments_of_parse h).1, hback, List.intercalate_splitOn]

/-- The text of keys is cut into these keys. -/
theorem splitOn_text (h : ∀ key ∈ path.segments, IsKey key) :
    path.text.toList.splitOn '.' = path.segments.map String.toList := by
  rw [toList_text]
  apply List.splitOn_intercalate
  · intro piece hpiece
    obtain ⟨key, hkey, rfl⟩ := List.mem_map.mp hpiece
    exact (h key hkey).undivided
  · simp [segments]

/-- **A path of keys is read from its text.** -/
theorem parse_text (h : ∀ key ∈ path.segments, IsKey key) : parse path.text = .ok path := by
  have hsplit := splitOn_text h
  have hnone : [] ∉ path.text.toList.splitOn '.' := by
    rw [hsplit]
    intro hmem
    obtain ⟨key, hkey, hempty⟩ := List.mem_map.mp hmem
    exact (h key hkey).nonempty (String.toList_eq_nil_iff.mp hempty)
  have hne : path.text ≠ "" := fun heq => hnone (nil_mem_splitOn_iff.mpr (.inl (by rw [heq]; rfl)))
  obtain ⟨found, hsegments, hparse⟩ := parse_cases path.text
  have hfound : found = path := by
    apply eq_of_segments
    rw [hsegments, hsplit]
    simp [Function.comp_def]
  rw [hparse, if_neg hne, if_neg hnone, hfound]

/-- **A text is read as the path whose keys it joins**, if these are keys. -/
theorem parse_eq_ok_iff : parse text = .ok path ↔ path.text = text ∧ ∀ key ∈ path.segments, IsKey key := by
  constructor
  · exact fun h => ⟨text_of_parse h, isKey_of_parse h⟩
  · rintro ⟨rfl, h⟩
    exact parse_text h

/-! ### Dotted texts -/

/-- No piece of a text is empty if and only if its dots stand between other characters. -/
theorem isDotted_iff : IsDotted text ↔ [] ∉ text.toList.splitOn '.' := by
  rw [nil_mem_splitOn_iff, String.toList_eq_nil_iff]
  simp only [not_or]
  exact ⟨fun ⟨h₁, h₂, h₃, h₄⟩ => ⟨h₁, h₂, h₃, h₄⟩, fun ⟨h₁, h₂, h₃, h₄⟩ => ⟨h₁, h₂, h₃, h₄⟩⟩

/-- Texts that are read are told from their dots, and so is why others are not. -/
theorem parse_outcomes (text : String) : ((∃ path, parse text = .ok path) ↔ IsDotted text) ∧
    (parse text = .error .empty ↔ text = "") ∧
    (parse text = .error .emptySegment ↔ text ≠ "" ∧ ¬IsDotted text) := by
  obtain ⟨path, -, hparse⟩ := parse_cases text
  have hempty : text = "" → [] ∈ text.toList.splitOn '.' := by
    rintro rfl
    exact nil_mem_splitOn_iff.mpr (.inl rfl)
  rw [hparse, isDotted_iff]
  split
  · simp_all
  · split <;> simp_all

/-- **Key paths and dotted texts belong together one by one.** A text is read if and only if it is not empty, no dot
stands in front or at its end, and no two stand side by side. What is read is made of keys, and its text is the text
that was read; keys joined by dots are read as these keys. So no two texts name the same path. -/
theorem parse_dotted :
    (∀ text, (∃ path, parse text = .ok path) ↔ IsDotted text) ∧
      (∀ text path, parse text = .ok path →
        (∀ key ∈ path.segments, IsKey key) ∧ path.parents ++ [path.leaf] = path.segments ∧ path.text = text) ∧
      (∀ keys : List String, keys ≠ [] → (∀ key ∈ keys, IsKey key) →
        ∃ path, parse (".".intercalate keys) = .ok path ∧ path.segments = keys) ∧
      ∀ text other path, parse text = .ok path → parse other = .ok path → text = other := by
  refine ⟨fun text => (parse_outcomes text).1, fun text path h => ?_, fun keys hne hkeys => ?_,
    fun text other path h h' => ?_⟩
  · exact ⟨isKey_of_parse h, rfl, text_of_parse h⟩
  · obtain ⟨path, rfl⟩ := exists_segments hne
    exact ⟨path, parse_text hkeys, rfl⟩
  · rw [← text_of_parse h, text_of_parse h']

example : parse "s.app.name" = .ok ⟨["s", "app"], "name"⟩ ∧ parse "app..name" = .error .emptySegment := by
  decide +kernel

end KeyPath
end ManifestBump

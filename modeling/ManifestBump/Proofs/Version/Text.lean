import ManifestBump.Proofs.Version.Grammar

/-! What versions are written with, and that a bumped version reads back.

Every text that reads as a release consists of letters, digits, `-`, `.` and `+` (`Release.Written`),
so it holds nothing that a manifest could take for a quote, a blank or a key. What a bump writes is
such a text, has a dot in it, and reads back as the release it was written from
(`parse_text_of_isPlain`). -/
namespace ManifestBump
open Text

/-- A character versions are written with. -/
def isVersionChar (c : Char) : Bool := c.isAlphanum || c == '-' || c == '.' || c == '+'

/-- A text made of the characters of versions, with something in it. -/
structure Release.Written (text : List Char) : Prop where
  ne_nil : text ≠ []
  chars : ∀ c ∈ text, isVersionChar c = true

namespace Version

/-! ### The characters of versions -/

theorem isVersionChar_of_numeral {x : List Char} {n : Nat} (h : Numeral x n) : ∀ c ∈ x, isVersionChar c = true := by
  intro c hc
  simp [isVersionChar, Char.isAlphanum, h.isDigit c hc]

theorem isVersionChar_of_isBody {c : Char} (h : isBody c = true) : isVersionChar c = true := by
  simp only [isBody, isIdentifierChar, isVersionChar, Bool.or_eq_true] at h ⊢
  tauto

theorem isVersionChar_of_tagged {mark : Char} {part : Part} {names : List String} (hmark : isVersionChar mark = true)
    (h : ∀ name ∈ names, IsIdentifier part name) : ∀ c ∈ tagged mark names, isVersionChar c = true := by
  unfold tagged
  split
  · exact List.forall_mem_nil _
  · exact List.forall_mem_cons.mpr ⟨hmark, fun c hc => isVersionChar_of_isBody (isBody_of_mem_dotted h c hc)⟩

theorem Spelled.chars {body : List Char} {v : Version} (h : Spelled body v) : ∀ c ∈ body, isVersionChar c = true := by
  have hdot : ∀ {x rest : List Char} {n : Nat}, Numeral x n → (∀ c ∈ rest, isVersionChar c = true) →
      ∀ c ∈ x ++ '.' :: rest, isVersionChar c = true := fun hx hrest =>
    List.forall_mem_append.mpr ⟨isVersionChar_of_numeral hx, List.forall_mem_cons.mpr ⟨by decide, hrest⟩⟩
  cases h with
  | major hx => exact isVersionChar_of_numeral hx
  | minor hx hy => exact hdot hx (isVersionChar_of_numeral hy)
  | full hx hy hz hv =>
    refine hdot hx (hdot hy (List.forall_mem_append.mpr ⟨isVersionChar_of_numeral hz, ?_⟩))
    exact List.forall_mem_append.mpr
      ⟨isVersionChar_of_tagged (by decide) hv.pre, isVersionChar_of_tagged (by decide) hv.build⟩

/-! ### What a bump writes -/

/-- Without identifiers, as a bump leaves it. -/
def IsPlain (v : Version) : Prop := v.pre = [] ∧ v.build = []

theorem isPlain_of_bump? {v next : Version} {level : Level} (h : v.bump? level = some next) :
    next.IsPlain := by
  cases level <;>
  · simp only [bump?, Option.map_eq_some_iff] at h
    obtain ⟨n, -, rfl⟩ := h
    exact ⟨rfl, rfl⟩

theorem IsPlain.wellFormed {v : Version} (h : v.IsPlain) : v.WellFormed where
  pre := by
    rw [h.1]
    exact List.forall_mem_nil _
  build := by
    rw [h.2]
    exact List.forall_mem_nil _

end Version

namespace Release

/-! ### Releases -/

/-- What reads as a release is written with the characters of versions. -/
theorem written_of_parse {text : String} {r : Release} (h : parse text = .ok r) :
    Written text.toList := by
  obtain ⟨body, htext, hbody⟩ := spelled_of_parse h
  obtain ⟨d, rest, rfl, -⟩ := exists_digit_of_spelled hbody
  rw [htext]
  refine ⟨List.append_ne_nil_of_right_ne_nil _ (List.cons_ne_nil _ _), List.forall_mem_append.mpr ⟨?_, hbody.chars⟩⟩
  cases r.marked with
  | false => exact List.forall_mem_nil _
  | true => exact List.forall_mem_singleton.mpr (by decide)

/-- **A bumped version reads back.** -/
theorem parse_text_of_isPlain {r : Release} (h : r.version.IsPlain) : parse r.text = .ok r :=
  parse_text_of_wellFormed h.wellFormed

theorem dot_mem_text (r : Release) : '.' ∈ r.text.toList := by
  rw [toList_text, Version.toList_text]
  simp

end Release
end ManifestBump

import ManifestBump.Proofs.Json.Bare
import ManifestBump.Proofs.Manifest.Edit
import ManifestBump.Proofs.Yaml.Bare

/-! Setting a value without quotes and reading it back.

A value without quotes ends where the format says, and `set` does not ask for that: it takes every text without quotes
and line breaks. Of these, the ones that the format reads as a whole are read back (`Manifest.get_of_set_bare`), and
others are read back in part (`Manifest.get_of_set_torn`). -/
namespace ManifestBump
open Text

namespace Manifest
variable {m : Manifest} {key front old value back : String}

/-- A text that is read as a whole when it takes the place of a value without quotes, for the keys that lead there. -/
inductive Fits (m : Manifest) (key front old value : String) : Prop where
  /-- In JSON, a run of bare characters; in a literal, one that does not hide what is behind it. -/
  | json (hjson : m.locator = .json) (hkey : ∀ c ∈ key.toList, Json.isQuote c = false ∧ c ≠ '\n')
    (hbare : Json.Bare value.toList)
    (hliteral : (Outline.scan m.content.toList).inLiteral front.toList.length = true →
      Json.Sealed old.toList ∧ Json.Sealed value.toList)
  /-- In YAML, a plain scalar. -/
  | yaml (hyaml : m.locator = .yaml) (hkey : '\n' ∉ key.toList)
    (hparents : ∀ path, KeyPath.parse key = .ok path → ∀ parent ∈ path.parents, ':' ∉ parent.toList)
    (plain : Yaml.Plain) (hplain : value.toList = plain.text)

/-- What fits can be set. -/
theorem Fits.checkValue (h : m.Fits key front old value) : checkValue value = .ok () := by
  refine checkValue_eq_ok_iff.mpr ?_
  cases h with
  | json hjson hkey hbare hliteral =>
    intro c hc
    have hne : ∀ d, Json.isBare d = false → c ≠ d := fun d hd => Json.ne_of_isBare (hbare.chars c hc) hd
    exact ⟨⟨hne _ (by decide), hne _ (by decide)⟩, hne _ (by decide), hne _ (by decide)⟩
  | yaml hyaml hkey hparents plain hplain =>
    intro c hc
    obtain ⟨hline, hquote⟩ := plain.chars_text c (hplain ▸ hc)
    simpa [Yaml.inLine, Yaml.isQuote] using And.intro hline hquote

/-- **A value without quotes is read back once it has been set**, if the format reads it as a whole. -/
theorem get_of_set_bare (h : m.Stands key front old back)
    (hunquoted : ∀ c ∈ front.toList.getLast?, c ≠ '"' ∧ c ≠ '\'') (hfits : m.Fits key front old value) :
    ∃ edited, m.set key value = .ok edited ∧ edited.get key = .ok value := by
  suffices hstands : Stands { m with content := front ++ value ++ back } key front value back from
    ⟨_, h.set_eq_ok_iff.mpr ⟨hfits.checkValue, rfl⟩, hstands.get⟩
  obtain ⟨path, found, hpath, hfound, hspan⟩ := h.exists_found value
  have hsegments := KeyPath.of_parse hpath
  have hcontent : m.content.toList = (Stands.edit front old value back).before := h.content_toList
  cases hfits with
  | json hjson hkey hbare hliteral =>
    have hkeys : ∀ segment ∈ path.segments, ∀ c ∈ segment.toList, Json.isQuote c = false ∧ c ≠ '\n' :=
      fun segment hsegment c hc => hkey c ((hsegments segment hsegment).2 c hc)
    have hfront : ∀ c ∈ front.toList.getLast?, Json.isQuote c = false :=
      fun c hc => by simp [Json.isQuote, hunquoted c hc]
    rw [hcontent] at hliteral
    rw [hjson] at hfound
    obtain ⟨again, hagain, hplace⟩ := Json.find?_bare hkeys hbare hfront hliteral hfound hspan
    exact Stands.of_find? hpath (by rw [hjson]; exact hagain) hplace
  | yaml hyaml hkey hparents plain hplain =>
    have hfeeds : ∀ segment ∈ path.segments, '\n' ∉ segment.toList :=
      fun segment hsegment hmem => hkey ((hsegments segment hsegment).2 _ hmem)
    have hfront : ∀ c ∈ front.toList.getLast?, Yaml.isQuote c = false :=
      fun c hc => by simp [Yaml.isQuote, hunquoted c hc]
    rw [hyaml] at hfound
    obtain ⟨again, hagain, hplace⟩ :=
      Yaml.find?_plain plain hplain hfeeds (hparents path hpath) hfront hfound hspan
    exact Stands.of_find? hpath (by rw [hyaml]; exact hagain) hplace

/-- A number in JSON: `{"n": 1}`. -/
def jsonNumber : Manifest := ⟨"\x7b\"n\": 1\x7d", .json⟩

/-- A number in YAML. -/
def yamlNumber : Manifest := ⟨"n: 1 # one\n", .yaml⟩

theorem get_of_set_bare_numbers :
    (∃ edited, jsonNumber.set "n" "-2.5:\\*" = .ok edited ∧ edited.get "n" = .ok "-2.5:\\*") ∧
      ∃ edited, yamlNumber.set "n" "2, [3]" = .ok edited ∧ edited.get "n" = .ok "2, [3]" := by
  have hjson : jsonNumber.Stands "n" "\x7b\"n\": " "1" "\x7d" :=
    ⟨rfl, ⟨⟨1, 7⟩, ⟨6, 7⟩⟩, by decide +kernel, by decide⟩
  have hyaml : yamlNumber.Stands "n" "n: " "1" " # one\n" :=
    ⟨rfl, ⟨⟨0, 10⟩, ⟨3, 4⟩⟩, by decide +kernel, by decide⟩
  constructor
  · refine get_of_set_bare hjson (by simp) (.json rfl (by simp [Json.isQuote]) ⟨by simp, ?_⟩ fun hliteral => ?_)
    · simp [Json.isBare, isBlank]
    · have hcode : (Outline.scan jsonNumber.content.toList).inLiteral 6 = false := by decide +kernel
      exact absurd (hcode.symm.trans hliteral) (by decide)
  · have hpath : KeyPath.parse "n" = .ok ⟨[], "n"⟩ := by decide +kernel
    let plain : Yaml.Plain := {
      first := '2'
      rest := [',', ' ', '[', '3', ']']
      visible := by decide
      chars := by simp [Yaml.inLine, Yaml.isQuote]
      unmarked := fun front c back h => by
        have hmem : '#' ∈ [',', ' ', '[', '3', ']'] := h ▸ by simp
        simp at hmem
      ends := by simp [isIndent] }
    refine get_of_set_bare hyaml (by simp) (.yaml rfl (by simp) (fun path h => ?_) plain (by decide +kernel))
    rw [hpath] at h
    cases h
    simp

/-- **What the format does not read as a whole is set all the same**, and read back in part: in JSON a bare value ends
at a comma, and in YAML a comment begins behind a blank. In a literal, a backslash at the end of a value hides the quote
behind it, and another value is read. -/
theorem get_of_set_torn :
    (jsonNumber.set "n" "1,2").bind (fun edited => edited.get "n") = .ok "1" ∧
      (yamlNumber.set "n" "2 # x").bind (fun edited => edited.get "n") = .ok "2" ∧
      ((Manifest.mk "\x7b\"p\":\x7b\"a\\\":\" 'a\\':1' \x7d , \"" .json).set "p.a\\" "1\\").bind
        (fun edited => edited.get "p.a\\") = .ok " 'a\\':1\\' \x7d , " := by
  decide +kernel

end Manifest
end ManifestBump

import ManifestBump.Proofs.Json.Others
import ManifestBump.Proofs.Manifest.Edit
import ManifestBump.Proofs.Yaml.Others

/-! Setting one value and reading another.

A value that `set` takes has neither quotes nor line breaks. Set in the place of one key, it leaves what is read
under every other key as it was: in a YAML text of any shape, for keys without colons
(`Manifest.get_other_of_set_yaml`), and in a JSON document, as long as no backslash at its end hides the closing quote
(`Manifest.get_other_of_set_json`, `Manifest.get_other_of_set_hiding`). -/
namespace ManifestBump
open Text

namespace Manifest
variable {m : Manifest} {key other value : String} {found found' : Occurrence}

/-- Another value is read as before when its place follows the place it had. -/
theorem get_other_of_follows {P : Occurrence → Prop} {path path' : KeyPath} (hpath : KeyPath.parse key = .ok path)
    (hfound : m.locator.find? m.content.toList path = some found) (hpath' : KeyPath.parse other = .ok path')
    (hfound' : m.locator.find? m.content.toList path' = some found') (hvalue : checkValue value = .ok ())
    (hfollows : Follows P
      (fun place place' => place'.value.slice (found.value.splice m.content.toList value.toList) =
        place.value.slice m.content.toList)
      (m.locator.find? m.content.toList path')
      (m.locator.find? (found.value.splice m.content.toList value.toList) path'))
    (hP : P found') :
    ∃ edited text, m.set key value = .ok edited ∧ m.get other = .ok text ∧ edited.get other = .ok text := by
  obtain ⟨place, hplace, hsame⟩ := hfollows.some found' hfound' hP
  refine ⟨_, _, set_eq_ok_iff.mpr ⟨path, found, hpath, hvalue, hfound, rfl⟩,
    get_eq_ok_iff.mpr ⟨path', found', hpath', hfound', rfl⟩, get_eq_ok_iff.mpr ⟨path', place, hpath', ?_, ?_⟩⟩
  · rw [String.toList_ofList]
    exact hplace
  · rw [String.toList_ofList, hsame]

/-! ### YAML -/

/-- **Setting one value of a YAML text leaves every other value as it was**, whatever the text, for keys that hold
neither colons nor line feeds. Values that do not overlap are in different places. -/
theorem get_other_of_set_yaml (hyaml : m.locator = .yaml) (hkey : ':' ∉ key.toList ∧ '\n' ∉ key.toList)
    (hother : ':' ∉ other.toList ∧ '\n' ∉ other.toList) (hfound : m.locate key = .ok found)
    (hfound' : m.locate other = .ok found') (hapart : found'.value ≠ found.value)
    (hvalue : checkValue value = .ok ()) :
    ∃ edited text, m.set key value = .ok edited ∧ m.get other = .ok text ∧ edited.get other = .ok text := by
  obtain ⟨path, hpath, hfound⟩ := locate_eq_ok_iff.mp hfound
  obtain ⟨path', hpath', hfound'⟩ := locate_eq_ok_iff.mp hfound'
  have hsegments : ∀ {key : String} {path : KeyPath}, KeyPath.parse key = .ok path →
      ':' ∉ key.toList ∧ '\n' ∉ key.toList →
      ∀ segment ∈ path.segments, ':' ∉ segment.toList ∧ '\n' ∉ segment.toList := by
    intro key path hpath hkey segment hsegment
    obtain ⟨-, hmem⟩ := KeyPath.of_parse hpath segment hsegment
    exact ⟨fun h => hkey.1 (hmem _ h), fun h => hkey.2 (hmem _ h)⟩
  have hline : ∀ c ∈ value.toList, Yaml.inLine c = true := by
    intro c hc
    obtain ⟨⟨h₁, h₂⟩, -⟩ := checkValue_eq_ok_iff.mp hvalue c hc
    simp [Yaml.inLine, h₁, h₂]
  refine get_other_of_follows (P := fun place => place.value ≠ found.value) hpath hfound hpath' hfound' hvalue ?_ hapart
  rw [hyaml] at hfound ⊢
  exact Yaml.find?_follows (hsegments hpath hkey) (hsegments hpath' hother) hfound hline

/-- A text with a line that holds a value and also opens a block. -/
def ambiguous : Manifest := ⟨"a: v\n  b: 1 # b\n  a: \"w\"\na: 2\n", .yaml⟩

theorem get_other_of_set_ambiguous :
    ambiguous.locate "a" = .ok ⟨⟨0, 4⟩, ⟨3, 4⟩⟩ ∧ ambiguous.locate "a.a" = .ok ⟨⟨16, 24⟩, ⟨22, 23⟩⟩ ∧
      ∃ edited text, ambiguous.set "a" "x: # y" = .ok edited ∧ ambiguous.get "a.a" = .ok text ∧
        edited.get "a.a" = .ok text := by
  have hfound : ambiguous.locate "a" = .ok ⟨⟨0, 4⟩, ⟨3, 4⟩⟩ := by decide +kernel
  have hfound' : ambiguous.locate "a.a" = .ok ⟨⟨16, 24⟩, ⟨22, 23⟩⟩ := by decide +kernel
  exact ⟨hfound, hfound', get_other_of_set_yaml rfl (by decide) (by decide) hfound hfound' (by decide) (by decide)⟩

/-! ### JSON -/

/-- The text of a document. -/
def ofDocument (d : Json.Document) : Manifest := ⟨String.ofList d.render, .json⟩

/-- **Setting a string of a JSON document leaves every other value as it was**, for keys without quotes and for values
that do not hide the closing quote. In front of a string there is a quote. -/
theorem get_other_of_set_json {d : Json.Document} (hkey : ∀ c ∈ key.toList, c ≠ '"' ∧ c ≠ '\'')
    (hother : ∀ c ∈ other.toList, c ≠ '"' ∧ c ≠ '\'') (hfound : (ofDocument d).locate key = .ok found)
    (hfound' : (ofDocument d).locate other = .ok found') (hapart : found'.value ≠ found.value)
    (hstring : d.render[found.value.start - 1]? = some '"') (hvalue : checkValue value = .ok ())
    (hends : Json.hidesNext value.toList = false) :
    ∃ edited text, (ofDocument d).set key value = .ok edited ∧ (ofDocument d).get other = .ok text ∧
      edited.get other = .ok text := by
  obtain ⟨path, hpath, hfound⟩ := locate_eq_ok_iff.mp hfound
  obtain ⟨path', hpath', hfound'⟩ := locate_eq_ok_iff.mp hfound'
  have hplain : ∀ {key : String} {path : KeyPath}, KeyPath.parse key = .ok path →
      (∀ c ∈ key.toList, c ≠ '"' ∧ c ≠ '\'') → ∀ segment ∈ path.segments, Json.Unquoted segment.toList := by
    intro key path hpath hkey segment hsegment c hc
    obtain ⟨-, hmem⟩ := KeyPath.of_parse hpath segment hsegment
    simp [Json.isQuote, hkey c (hmem c hc)]
  have htext : (ofDocument d).content.toList = d.render := String.toList_ofList
  have hfound₀ : Json.find? d.render path = some found := htext ▸ hfound
  have hlookup : d.lookup path = some found.value := by
    rw [← Json.find?_document d (hplain hpath hkey), hfound₀, Option.map_some]
  have hchars : ∀ c ∈ value.toList, Json.isQuote c = false ∧ c ≠ '\n' := by
    intro c hc
    obtain ⟨⟨hfeed, -⟩, hdouble, hsingle⟩ := checkValue_eq_ok_iff.mp hvalue c hc
    exact ⟨by simp [Json.isQuote, hdouble, hsingle], hfeed⟩
  obtain ⟨e, old, hreplaced, hbefore, hinner, hafter⟩ := d.exists_replaced hlookup hstring hchars hends
  refine get_other_of_follows (P := fun place => place.value ≠ found.value) hpath hfound hpath' hfound' hvalue ?_ hapart
  rw [htext, hafter, hinner, ← hbefore]
  exact hreplaced.find?_follows (hplain hpath' hother)

/-- A document of two strings: `{"m":"1","n":"2"}`. -/
def twoStrings : Json.Document where
  before := Json.tight
  space := Json.tight
  members :=
    .cons Json.tight (.char 'm' rfl) Json.tight Json.tight (.string (.char '1' rfl)) Json.tight
    (.cons Json.tight (.char 'n' rfl) Json.tight Json.tight (.string (.char '2' rfl)) Json.tight .nil)
  behind := Json.tight

theorem get_other_of_set_twoStrings :
    (ofDocument twoStrings).locate "m" = .ok ⟨⟨1, 8⟩, ⟨6, 7⟩⟩ ∧
      (ofDocument twoStrings).locate "n" = .ok ⟨⟨9, 16⟩, ⟨14, 15⟩⟩ ∧
      ∃ edited text, (ofDocument twoStrings).set "m" "\\\\\x7b // " = .ok edited ∧
        (ofDocument twoStrings).get "n" = .ok text ∧ edited.get "n" = .ok text := by
  have hfound : (ofDocument twoStrings).locate "m" = .ok ⟨⟨1, 8⟩, ⟨6, 7⟩⟩ := by decide +kernel
  have hfound' : (ofDocument twoStrings).locate "n" = .ok ⟨⟨9, 16⟩, ⟨14, 15⟩⟩ := by decide +kernel
  exact ⟨hfound, hfound', get_other_of_set_json (by simp) (by simp) hfound hfound' (by decide)
    (by decide +kernel) (by decide +kernel) (by decide +kernel)⟩

/-- **A backslash at the end of a value hides the closing quote**, and the string takes in what is behind it. -/
theorem get_other_of_set_hiding :
    (ofDocument twoStrings).content = "\x7b\"m\":\"1\",\"n\":\"2\"\x7d" ∧ checkValue "\\" = .ok () ∧
      (ofDocument twoStrings).get "n" = .ok "2" ∧
      ((ofDocument twoStrings).set "m" "\\").bind (fun edited => edited.get "n") = .error (.notFound (.key "n")) := by
  decide +kernel

end Manifest
end ManifestBump

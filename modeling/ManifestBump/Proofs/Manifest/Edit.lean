import ManifestBump.Manifest.Basic
import ManifestBump.Proofs.Except
import ManifestBump.Proofs.Json.Edit
import ManifestBump.Proofs.KeyPath
import ManifestBump.Proofs.Podspec.Edit
import ManifestBump.Proofs.Yaml.Edit

/-! Setting a version and reading it back.

A lookup found the old version in the text, so it finds the new one in its place, in every format
(`Locator.find?_exchange`), and a podspec still names the same block variable
(`Locator.ofText_exchange`). Hence a version that has been set is read back, and the text is opened again
as what it was (`Manifest.get_of_set`). -/
namespace ManifestBump
open Text

/-! ### Values in texts -/

namespace Locator

/-- **What a lookup gives is a stretch of the text**, in every format and for every path. -/
theorem exists_cut {locator : Locator} {text : List Char} {path : KeyPath} {found : Occurrence}
    (h : locator.find? text path = some found) :
    ∃ front value back, text = front ++ value ++ back ∧ found.value = .behind front value := by
  cases locator with
  | json =>
    obtain ⟨n, stop, slot, -, -, hslot, rfl⟩ := Json.leaf_of_findIn h
    obtain ⟨rest, htext⟩ := Json.leaf?_text hslot
    rw [List.append_assoc _ slot.close] at htext
    obtain ⟨front, back, hcut⟩ := Slot.exists_cut
      (fun hnil => by rw [hnil, Json.leaf?_eq_none (Json.afterKey?_nil _)] at hslot; cases hslot) htext
    exact ⟨front, slot.value, back, hcut⟩
  | yaml =>
    obtain ⟨n, stop, indent, slot, hslot, rfl⟩ := Yaml.leaf_of_findIn h
    obtain ⟨rest, htext⟩ := Yaml.leafOf?_text hslot
    obtain ⟨front, back, hcut⟩ := Slot.exists_cut
      (fun hnil => by rw [hnil, Yaml.leafOf?, Yaml.leaf?_nil] at hslot; cases hslot) htext
    exact ⟨front, slot.value, back, hcut⟩
  | podspec block =>
    have h : Podspec.findTarget? text (Podspec.leftHandSide block path).toList = some found := h
    rw [Podspec.findTarget?_eq, firstAnswer_eq_some_iff] at h
    obtain ⟨n, -, -, hn, -⟩ := h
    obtain ⟨k, slot, hcandidate, -, rfl⟩ := Podspec.targetAt_eq_some_iff.mp hn
    obtain ⟨rest, htext⟩ := Podspec.candidate?_text hcandidate
    have htake : text.take text.length = text := List.take_length
    have hne : (text.take text.length).drop n ≠ [] := by
      intro hnil
      rw [htake] at hnil
      rw [Podspec.candidate?_of_nil hnil] at hcandidate
      cases hcandidate
    obtain ⟨front, back, hcut⟩ := Slot.exists_cut hne (by rw [htake]; exact htext)
    exact ⟨front, slot.value, back, hcut⟩

/-- What a key must be for its values to be read back: in YAML, it has to be in one line. -/
def OneLine (locator : Locator) (key : String) : Prop := locator = .yaml → '\n' ∉ key.toList

/-! ### Versions in texts -/

variable {e : Exchange}

/-- **Where the old version was found, the new one is found**, in every format. -/
theorem find?_exchange {locator : Locator} {key : String} (hline : locator.OneLine key) {path : KeyPath}
    (hpath : KeyPath.parse key = .ok path) {found : Occurrence} (h : locator.find? e.before path = some found)
    (hvalue : found.value = e.oldSpan) :
    ∃ found', locator.find? e.after path = some found' ∧ found'.value = e.newSpan := by
  have hdots : ∀ key ∈ path.segments, '.' ∉ key.toList :=
    fun segment hsegment => (KeyPath.of_parse hpath segment hsegment).1
  cases locator with
  | json => exact Json.find?_exchange hdots h hvalue
  | yaml =>
    have hfeeds : ∀ key ∈ path.segments, '\n' ∉ key.toList :=
      fun segment hsegment hmem => hline rfl ((KeyPath.of_parse hpath segment hsegment).2 _ hmem)
    exact Yaml.find?_exchange hdots hfeeds h hvalue
  | podspec block =>
    exact Podspec.find?_exchange (fun c hc => Podspec.isInner_of_isVersionChar (e.new_written.chars c hc)) h hvalue

/-- A text is opened as before. -/
theorem ofText_exchange {locator : Locator} {path : KeyPath} {found : Occurrence}
    (h : locator.find? e.before path = some found) (hvalue : found.value = e.oldSpan) :
    ofText locator.format (String.ofList e.after) = ofText locator.format (String.ofList e.before) := by
  cases locator with
  | json => rfl
  | yaml => rfl
  | podspec block =>
    obtain ⟨x, b, quote, quote', hquote, hquote', hfront, hback⟩ := Podspec.quotes_of_find? h hvalue
    have hsame := Podspec.discover?_exchange e.versions hquote hquote' hfront hback
    simp only [format, ofText, String.toList_ofList, hsame]

theorem format_of_ofText {format : Format} {text : String} {locator : Locator}
    (h : ofText format text = .ok locator) : locator.format = format := by
  cases format with
  | json =>
    cases h
    rfl
  | yaml =>
    cases h
    rfl
  | podspec =>
    simp only [ofText] at h
    split at h <;> cases h
    rfl

end Locator

/-! ### Reading back -/

namespace Manifest
variable {m edited : Manifest} {key value : String}

theorem parsePath_eq_ok_iff {path : KeyPath} : parsePath key = .ok path ↔ KeyPath.parse key = .ok path := by
  unfold parsePath
  cases KeyPath.parse key <;> simp

theorem resolve_eq_ok_iff {locator : Locator} {text : String} {path : KeyPath} {found : Occurrence} :
    locator.resolve text path = .ok found ↔ locator.find? text.toList path = some found := by
  unfold Locator.resolve
  cases locator.find? text.toList path <;> simp

theorem get_eq_ok_iff : m.get key = .ok value ↔ ∃ path found, KeyPath.parse key = .ok path ∧
    m.locator.find? m.content.toList path = some found ∧
    value = String.ofList (found.value.slice m.content.toList) := by
  constructor
  · intro h
    simp only [get, locate, bind_eq_ok_iff] at h
    obtain ⟨found, ⟨path, hpath, hfound⟩, hvalue⟩ := h
    cases hvalue
    exact ⟨path, found, parsePath_eq_ok_iff.mp hpath, resolve_eq_ok_iff.mp hfound, rfl⟩
  · intro h
    obtain ⟨path, found, hpath, hfound, rfl⟩ := h
    simp only [get, locate, bind_eq_ok_iff]
    exact ⟨found, ⟨path, parsePath_eq_ok_iff.mpr hpath, resolve_eq_ok_iff.mpr hfound⟩, rfl⟩

theorem set_eq_ok_iff : m.set key value = .ok edited ↔ ∃ path found, KeyPath.parse key = .ok path ∧
    checkValue value = .ok () ∧ m.locator.find? m.content.toList path = some found ∧
    edited = { m with content := String.ofList (found.value.splice m.content.toList value.toList) } := by
  constructor
  · intro h
    simp only [set, bind_eq_ok_iff] at h
    obtain ⟨path, hpath, ⟨⟩, hvalue, found, hfound, hedited⟩ := h
    cases hedited
    exact ⟨path, found, parsePath_eq_ok_iff.mp hpath, hvalue, resolve_eq_ok_iff.mp hfound, rfl⟩
  · intro h
    obtain ⟨path, found, hpath, hvalue, hfound, rfl⟩ := h
    simp only [set, bind_eq_ok_iff]
    exact ⟨path, parsePath_eq_ok_iff.mpr hpath, (), hvalue, found, resolve_eq_ok_iff.mpr hfound, rfl⟩

/-- The values that can be set. -/
theorem checkValue_eq_ok_iff :
    checkValue value = .ok () ↔ ∀ c ∈ value.toList, (c ≠ '\n' ∧ c ≠ '\r') ∧ c ≠ '"' ∧ c ≠ '\'' := by
  unfold checkValue valueFault?
  by_cases hline : value.toList.any fun c => c == '\n' || c == '\r'
  · simp only [hline, if_true, reduceCtorEq, false_iff]
    obtain ⟨c, hc, hbreak⟩ := List.any_eq_true.mp hline
    intro h
    obtain ⟨⟨h₁, h₂⟩, -⟩ := h c hc
    simp [h₁, h₂] at hbreak
  · by_cases hquote : value.toList.any fun c => c == '"' || c == '\''
    · simp only [hline, hquote, if_true, Bool.false_eq_true, if_false, reduceCtorEq, false_iff]
      obtain ⟨c, hc, hmark⟩ := List.any_eq_true.mp hquote
      intro h
      obtain ⟨-, h₁, h₂⟩ := h c hc
      simp [h₁, h₂] at hmark
    · simp only [hline, hquote, Bool.false_eq_true, if_false, true_iff]
      simp only [Bool.not_eq_true, List.any_eq_false, Bool.or_eq_true, beq_iff_eq, not_or] at hline hquote
      exact fun c hc => ⟨hline c hc, hquote c hc⟩

/-! ### Values between texts -/

/-- The value of a key stands between two texts. -/
structure Stands (m : Manifest) (key front value back : String) : Prop where
  content : m.content = front ++ value ++ back
  located : ∃ found, m.locate key = .ok found ∧ found.value = .behind front.toList value.toList

theorem locate_eq_ok_iff {found : Occurrence} : m.locate key = .ok found ↔
    ∃ path, KeyPath.parse key = .ok path ∧ m.locator.find? m.content.toList path = some found := by
  unfold locate
  cases hpath : parsePath key with
  | error e =>
    have hnone : ∀ path, KeyPath.parse key ≠ .ok path := by
      intro path h
      rw [parsePath_eq_ok_iff.mpr h] at hpath
      cases hpath
    simp [bind, Except.bind, hnone]
  | ok path =>
    simp [bind, Except.bind, parsePath_eq_ok_iff.mp hpath, resolve_eq_ok_iff]

/-- **A key that resolves has a value that stands between two texts.** -/
theorem exists_stands {found : Occurrence} (h : m.locate key = .ok found) :
    ∃ front value back, m.Stands key front value back := by
  obtain ⟨path, -, hfound⟩ := locate_eq_ok_iff.mp h
  obtain ⟨front, value, back, hcut, hspan⟩ := Locator.exists_cut hfound
  refine ⟨String.ofList front, String.ofList value, String.ofList back, ?_, found, h, by simpa using hspan⟩
  rw [← String.ofList_append, ← String.ofList_append, ← hcut, String.ofList_toList]

namespace Stands
variable {front old back : String}

theorem content_toList (h : m.Stands key front old back) :
    m.content.toList = front.toList ++ old.toList ++ back.toList := by
  rw [h.content, String.toList_append, String.toList_append]

/-- The value that stands there is what is read. -/
theorem get (h : m.Stands key front old back) : m.get key = .ok old := by
  obtain ⟨found, hfound, hspan⟩ := h.located
  obtain ⟨path, hpath, hfound⟩ := locate_eq_ok_iff.mp hfound
  refine get_eq_ok_iff.mpr ⟨path, found, hpath, hfound, ?_⟩
  rw [hspan, h.content_toList, Span.slice_behind, String.ofList_toList]

/-- Another value is set in its place, and nothing else is changed. -/
theorem set_eq_ok_iff (h : m.Stands key front old back) : m.set key value = .ok edited ↔
    checkValue value = .ok () ∧ edited = { m with content := front ++ value ++ back } := by
  obtain ⟨found, hfound, hspan⟩ := h.located
  obtain ⟨path, hpath, hfound⟩ := locate_eq_ok_iff.mp hfound
  have hedited : String.ofList (found.value.splice m.content.toList value.toList) = front ++ value ++ back := by
    rw [hspan, h.content_toList, Span.splice_behind, String.ofList_append, String.ofList_append,
      String.ofList_toList, String.ofList_toList, String.ofList_toList]
  rw [Manifest.set_eq_ok_iff]
  constructor
  · rintro ⟨path', found', hpath', hvalue, hfound', rfl⟩
    obtain rfl : path = path' := by simpa [hpath] using hpath'
    obtain rfl : found = found' := by simpa [hfound] using hfound'
    exact ⟨hvalue, by rw [hedited]⟩
  · rintro ⟨hvalue, rfl⟩
    exact ⟨path, found, hpath, hvalue, hfound, by rw [hedited]⟩

/-- A text with a value that is exchanged for another one. -/
def edit (front old value back : String) : Edit := ⟨front.toList, old.toList, value.toList, back.toList⟩

/-- The place of the value is the stretch that is exchanged. -/
theorem exists_found (h : m.Stands key front old back) (value : String) : ∃ path found, KeyPath.parse key = .ok path ∧
    m.locator.find? (edit front old value back).before path = some found ∧
    found.value = (edit front old value back).oldSpan := by
  obtain ⟨found, hfound, hspan⟩ := h.located
  obtain ⟨path, hpath, hfound⟩ := locate_eq_ok_iff.mp hfound
  rw [h.content_toList] at hfound
  exact ⟨path, found, hpath, hfound, hspan⟩

/-- A value that is found where the old one was found stands there. -/
theorem of_find? {path : KeyPath} {found : Occurrence} (hpath : KeyPath.parse key = .ok path)
    (hfound : m.locator.find? (edit front old value back).after path = some found)
    (hspan : found.value = (edit front old value back).newSpan) :
    Stands { m with content := front ++ value ++ back } key front value back := by
  refine ⟨rfl, found, locate_eq_ok_iff.mpr ⟨path, hpath, ?_⟩, hspan⟩
  show m.locator.find? (front ++ value ++ back).toList path = some found
  rw [String.toList_append, String.toList_append]
  exact hfound

/-- **A version that has been set stands where the old one stood**, and the text is opened again as what it
was. -/
theorem exchange (h : m.Stands key front old back) (hopen : Locator.ofText m.format m.content = .ok m.locator)
    (hline : m.locator.OneLine key) (hold : Release.Written old.toList) (hnew : Release.Written value.toList)
    (hdot : '.' ∈ value.toList) (hset : m.set key value = .ok edited) :
    edited.locator = m.locator ∧ Locator.ofText m.format edited.content = .ok m.locator ∧
      edited.Stands key front value back := by
  obtain ⟨path, found, hpath, hfound, hspan⟩ := h.exists_found value
  obtain ⟨-, rfl⟩ := h.set_eq_ok_iff.mp hset
  let e : Exchange := ⟨edit front old value back, hold, hnew, hdot⟩
  have hcontent : m.content = String.ofList e.before := by
    rw [← m.content.ofList_toList, h.content_toList]
    rfl
  have hafter : front ++ value ++ back = String.ofList e.after := by
    rw [← (front ++ value ++ back).ofList_toList, String.toList_append, String.toList_append]
    rfl
  refine ⟨rfl, ?_, ?_⟩
  · show Locator.ofText m.locator.format (front ++ value ++ back) = _
    rw [hafter, Locator.ofText_exchange (e := e) hfound hspan, ← hcontent]
    exact hopen
  · obtain ⟨again, hagain, hplace⟩ := Locator.find?_exchange (e := e) hline hpath hfound hspan
    exact of_find? hpath hagain hplace

end Stands

/-- **A version that has been set is read back**, and the text is opened again as what it was. -/
theorem get_of_set {old : String} (hopen : Locator.ofText m.format m.content = .ok m.locator)
    (hline : m.locator.OneLine key) (hget : m.get key = .ok old) (hold : Release.Written old.toList)
    (hnew : Release.Written value.toList) (hdot : '.' ∈ value.toList) (hset : m.set key value = .ok edited) :
    edited.locator = m.locator ∧ Locator.ofText m.format edited.content = .ok m.locator ∧
      edited.get key = .ok value := by
  obtain ⟨path, found, hpath, hfound, -⟩ := get_eq_ok_iff.mp hget
  obtain ⟨front, old', back, hstands⟩ := exists_stands (locate_eq_ok_iff.mpr ⟨path, hpath, hfound⟩)
  obtain rfl : old' = old := by simpa [hstands.get] using hget
  obtain ⟨hlocator, hreopen, hedited⟩ := hstands.exchange hopen hline hold hnew hdot hset
  exact ⟨hlocator, hreopen, hedited.get⟩

end Manifest
end ManifestBump

import ManifestBump.Proofs.Json.Quoted
import ManifestBump.Proofs.Manifest.Edit
import ManifestBump.Proofs.Yaml.Quoted

/-! The laws of reading and setting.

A value that has been set is read back from where the old one was read, and what is set next comes to the same as if it
had been set at once (`Manifest.SetBack`). In a podspec that holds of every value that `set` takes
(`Manifest.setBack_podspec`). Between the quotes of a YAML value it holds for keys under which no blank stands behind a
colon (`Manifest.setBack_yaml`): a value may look like such a key (`Manifest.setBack_yaml_lookalike`). Between the quotes
of a JSON value it holds as long as the string ends where the old one did, or nothing in front of it reads like its key
(`Manifest.setBack_json`): a backslash at the end of a value lets an object go on further, and with it a string that
disguises as a key (`Manifest.setBack_json_disguised`). -/
namespace ManifestBump
open Text

namespace Manifest
variable {m : Manifest} {key front old value back : String} {found : Occurrence}

/-- What setting a value at a key that was found comes to. -/
structure SetBack (m : Manifest) (key value : String) (found : Occurrence) (edited : Manifest) : Prop where
  set_eq : m.set key value = .ok edited
  /-- The value begins where the old one did. -/
  located : ∃ again, edited.locate key = .ok again ∧ again.value.start = found.value.start
  /-- It is read back. -/
  get_eq : edited.get key = .ok value
  /-- What is set next comes to the same as if it had been set at once. -/
  set_set : ∀ other, edited.set key other = m.set key other

/-- Setting a key that has been found fails for no other reason than the value. -/
theorem Stands.set_eq (h : m.Stands key front old back) (value : String) :
    m.set key value = (checkValue value).map fun _ => { m with content := front ++ value ++ back } := by
  cases hvalue : checkValue value with
  | ok => exact h.set_eq_ok_iff.mpr ⟨hvalue, rfl⟩
  | error fault =>
    obtain ⟨found, hfound, -⟩ := h.located
    obtain ⟨path, hpath, -⟩ := locate_eq_ok_iff.mp hfound
    simp only [set, bind, Except.bind, parsePath_eq_ok_iff.mpr hpath, hvalue]
    rfl

/-- The value that was found is the one that stands there. -/
theorem Stands.value_eq (h : m.Stands key front old back) (hfound : m.locate key = .ok found) :
    found.value = .behind front.toList old.toList := by
  obtain ⟨place, hplace, hspan⟩ := h.located
  rw [hfound] at hplace
  cases hplace
  exact hspan

/-- A value that stands where the old one stood has been set back. -/
theorem Stands.setBack (h : m.Stands key front old back) (hvalue : checkValue value = .ok ())
    (hnew : Stands { m with content := front ++ value ++ back } key front value back)
    (hfound : m.locate key = .ok found) :
    m.SetBack key value found { m with content := front ++ value ++ back } := by
  refine ⟨h.set_eq_ok_iff.mpr ⟨hvalue, rfl⟩, ?_, hnew.get, fun other => ?_⟩
  · obtain ⟨again, hagain, hspan⟩ := hnew.located
    exact ⟨again, hagain, by rw [hspan, h.value_eq hfound]; rfl⟩
  · rw [hnew.set_eq, h.set_eq]

/-- The character in front of the value is a quote. -/
def Quoted (m : Manifest) (found : Occurrence) : Prop :=
  ((m.content.toList.take found.value.start).getLast?.any fun c => c == '"' || c == '\'') = true

instance : Decidable (m.Quoted found) := inferInstanceAs (Decidable (_ = true))

theorem Stands.quoted (h : m.Stands key front old back) (hfound : m.locate key = .ok found) (hquoted : m.Quoted found) :
    ∃ quote, (quote = '"' ∨ quote = '\'') ∧ front.toList.getLast? = some quote := by
  rw [Quoted, h.value_eq hfound, h.content_toList, Span.behind, List.append_assoc, List.take_left] at hquoted
  cases hlast : front.toList.getLast? with
  | none => simp [hlast] at hquoted
  | some quote => exact ⟨quote, by simpa [hlast] using hquoted, rfl⟩

/-- A value that `set` takes holds neither quotes nor line breaks. -/
theorem plain_of_checkValue (h : checkValue value = .ok ()) :
    ∀ c ∈ value.toList, Json.isQuote c = false ∧ c ≠ '\n' := by
  intro c hc
  obtain ⟨⟨hfeed, -⟩, hdouble, hsingle⟩ := checkValue_eq_ok_iff.mp h c hc
  simp [Json.isQuote, hfeed, hdouble, hsingle]

/-! ### JSON -/

/-- **A quoted value of a JSON text is set back**, if a literal begins at its quote. Both values have to hide their
closing quote behind a backslash, or neither, unless no string in front of them disguises as the key. -/
theorem setBack_json (hjson : m.locator = .json) (hfound : m.locate key = .ok found) (hquoted : m.Quoted found)
    (hliteral : (Outline.scan m.content.toList).startsLiteral (found.value.start - 1) = true)
    (hvalue : checkValue value = .ok ())
    (hends : Json.hidesNext (found.value.slice m.content.toList) = Json.hidesNext value.toList ∨
      ∀ path, KeyPath.parse key = .ok path →
        Json.Undisguised m.content.toList path.leaf.toList (found.value.start - 1)) :
    ∃ edited, m.SetBack key value found edited := by
  obtain ⟨front, old, back, hstands⟩ := exists_stands hfound
  obtain ⟨path, place, hpath, hplace, hspan⟩ := hstands.exists_found value
  obtain ⟨quote, hquote, hfront⟩ := hstands.quoted hfound hquoted
  rw [hstands.value_eq hfound, hstands.content_toList, Span.slice_behind] at hends
  rw [hstands.value_eq hfound, hstands.content_toList] at hliteral
  rw [hjson] at hplace
  obtain ⟨again, hagain, hnew⟩ := Json.find?_quoted (e := Stands.edit front old value back)
    (Json.isQuote_iff.mpr hquote) hfront (plain_of_checkValue hvalue) hliteral (hends.imp id fun h => h path hpath)
    hplace hspan
  have hedited := Stands.of_find? hpath (by rw [hjson]; exact hagain) hnew
  exact ⟨_, hstands.setBack hvalue hedited hfound⟩

/-- A value in an object, and another object behind it. -/
def nested : Manifest := ⟨"\x7b\"a\": \x7b\"b\": \"x\"\x7d, \"c\": \x7b\"b\": \"y\"\x7d\x7d", .json⟩

theorem setBack_nested :
    nested.locate "a.b" = .ok ⟨⟨7, 15⟩, ⟨13, 14⟩⟩ ∧ ∃ edited, nested.SetBack "a.b" "\x7d, \\" ⟨⟨7, 15⟩, ⟨13, 14⟩⟩ edited := by
  have hfound : nested.locate "a.b" = .ok ⟨⟨7, 15⟩, ⟨13, 14⟩⟩ := by decide +kernel
  have hvalue : checkValue "\x7d, \\" = .ok () := by decide
  have hpath : KeyPath.parse "a.b" = .ok ⟨["a"], "b"⟩ := by decide +kernel
  have hplain : Json.Undisguised nested.content.toList "b".toList 12 := by decide +kernel
  refine ⟨hfound, setBack_json rfl hfound (by decide +kernel) (by decide +kernel) hvalue (.inr fun path h => ?_)⟩
  rw [hpath] at h
  cases h
  exact hplain

/-- A key in front of the value, up to a quote of the other kind, whose value ends behind the object. -/
def disguised : Manifest := ⟨"\x7b\"p\":\x7b\"a' : \" 'a' : 'old' \x7d \" \x7d", .json⟩

theorem setBack_json_disguised :
    (∃ found, disguised.locate "p.a" = .ok found ∧ disguised.Quoted found ∧
        (Outline.scan disguised.content.toList).startsLiteral (found.value.start - 1) = true) ∧
      disguised.get "p.a" = .ok "old" ∧ checkValue "x\\" = .ok () ∧
      (disguised.set "p.a" "x\\").bind (fun edited => edited.get "p.a") = .ok " 'a' : 'x\\' \x7d " := by
  refine ⟨⟨⟨⟨14, 25⟩, ⟨21, 24⟩⟩, ?_⟩, ?_⟩ <;> decide +kernel

/-! ### YAML -/

/-- **A quoted value of a YAML text is set back**, for keys in one line, if none of the segments above the last one holds
a colon with a blank behind it. -/
theorem setBack_yaml (hyaml : m.locator = .yaml) (hkey : '\n' ∉ key.toList)
    (hparents : ∀ path, KeyPath.parse key = .ok path → ∀ parent ∈ path.parents, ∀ b, isIndent b = true →
      ¬[':', b] <:+: parent.toList)
    (hfound : m.locate key = .ok found) (hquoted : m.Quoted found) (hvalue : checkValue value = .ok ()) :
    ∃ edited, m.SetBack key value found edited := by
  obtain ⟨front, old, back, hstands⟩ := exists_stands hfound
  obtain ⟨path, place, hpath, hplace, hspan⟩ := hstands.exists_found value
  obtain ⟨quote, hquote, hfront⟩ := hstands.quoted hfound hquoted
  have hfeeds : ∀ segment ∈ path.segments, '\n' ∉ segment.toList :=
    fun segment hsegment hmem => hkey ((KeyPath.of_parse hpath segment hsegment).2 _ hmem)
  have hinner : ∀ c ∈ value.toList, Yaml.isInner quote c = true := by
    intro c hc
    obtain ⟨⟨hfeed, hreturn⟩, hdouble, hsingle⟩ := checkValue_eq_ok_iff.mp hvalue c hc
    have hne : c ≠ quote := by rcases hquote with rfl | rfl <;> assumption
    simp [Yaml.isInner, Yaml.inLine, hfeed, hreturn, hne]
  rw [hyaml] at hplace
  obtain ⟨again, hagain, hnew⟩ := Yaml.find?_quoted hfeeds (hparents path hpath) (Yaml.isQuote_eq_true_iff.mpr hquote)
    hfront hinner hplace hspan
  have hedited := Stands.of_find? hpath (by rw [hyaml]; exact hagain) hnew
  exact ⟨_, hstands.setBack hvalue hedited hfound⟩

/-- A value between quotes under a key with a colon in it. -/
def urls : Manifest := ⟨"a:b:\n  c: '' # none\n", .yaml⟩

theorem setBack_urls :
    urls.locate "a:b.c" = .ok ⟨⟨5, 19⟩, ⟨11, 11⟩⟩ ∧
      ∃ edited, urls.SetBack "a:b.c" "x: # y" ⟨⟨5, 19⟩, ⟨11, 11⟩⟩ edited := by
  have hfound : urls.locate "a:b.c" = .ok ⟨⟨5, 19⟩, ⟨11, 11⟩⟩ := by decide +kernel
  have hvalue : checkValue "x: # y" = .ok () := by decide
  have hpath : KeyPath.parse "a:b.c" = .ok ⟨["a:b"], "c"⟩ := by decide +kernel
  have hsolid : ∀ c ∈ "a:b".toList, isIndent c = false := by simp [isIndent]
  refine ⟨hfound, setBack_yaml rfl (by decide) (fun path h parent hparent b hb hpair => ?_) hfound (by decide +kernel)
    hvalue⟩
  rw [hpath] at h
  cases h
  obtain rfl := List.mem_singleton.mp hparent
  rw [hsolid b (hpair.subset (by simp))] at hb
  cases hb

/-- A value on a line that reads like a key with a blank behind its colon once another value is set. -/
def lookalike : Manifest :=
  ⟨"z: 0\n#p:\n  q: 1\n#p:\n   r: 1\n   #k:\n    s: 1\n    leaf: \"v:\n  #k:\n     leaf: \"old\"\n       leaf: \"w\"\n",
    .yaml⟩

theorem setBack_yaml_lookalike :
    (∃ found, lookalike.locate "#p.#k.leaf: \"v.leaf" = .ok found ∧ lookalike.Quoted found) ∧
      lookalike.get "#p.#k.leaf: \"v.leaf" = .ok "old" ∧ checkValue "v: # x" = .ok () ∧
      (lookalike.set "#p.#k.leaf: \"v.leaf" "v: # x").bind (fun edited => edited.get "#p.#k.leaf: \"v.leaf") =
        .ok "w" := by
  refine ⟨⟨⟨⟨64, 80⟩, ⟨76, 79⟩⟩, ?_⟩, ?_⟩ <;> decide +kernel

/-! ### Podspecs -/

/-- **A value of a podspec is set back**, and a version that is exchanged for another one leaves the block variable as
it was. -/
theorem setBack_podspec {block : String} (hblock : m.locator = .podspec block) (hfound : m.locate key = .ok found)
    (hvalue : checkValue value = .ok ()) :
    ∃ edited, m.SetBack key value found edited ∧
      ∀ old release release', m.get key = .ok old → Release.parse old = .ok release →
        Release.parse value = .ok release' →
        Podspec.discover? edited.content.toList = Podspec.discover? m.content.toList := by
  obtain ⟨front, old, back, hstands⟩ := exists_stands hfound
  obtain ⟨path, place, hpath, hplace, hspan⟩ := hstands.exists_found value
  have hinner : ∀ c ∈ value.toList, Podspec.isInner c = true := by
    intro c hc
    obtain ⟨⟨hfeed, hreturn⟩, hdouble, hsingle⟩ := checkValue_eq_ok_iff.mp hvalue c hc
    simp [Podspec.isInner, hfeed, hreturn, hdouble, hsingle]
  rw [hblock] at hplace
  obtain ⟨again, hagain, hnew⟩ := Podspec.find?_exchange hinner hplace hspan
  have hedited := Stands.of_find? hpath (by rw [hblock]; exact hagain) hnew
  refine ⟨_, hstands.setBack hvalue hedited hfound, fun old' release release' hget hparse hparse' => ?_⟩
  rw [hstands.get] at hget
  cases hget
  obtain ⟨x, b, quote, quote', hquote, hquote', hfront, hback⟩ := Podspec.quotes_of_find? hplace hspan
  have hversions : (Stands.edit front old value back).Versions :=
    ⟨Release.written_of_parse hparse, Release.written_of_parse hparse'⟩
  have hsame := Podspec.discover?_exchange hversions hquote hquote' hfront hback
  rw [hstands.content_toList, String.toList_append, String.toList_append]
  exact hsame

/-- A podspec with a short version. -/
def shortVersion : Manifest := ⟨"Pod::Spec.new do |s|\n  s.version = '1.0'\nend\n", .podspec "s"⟩

theorem setBack_shortVersion :
    shortVersion.locate "version" = .ok ⟨⟨22, 40⟩, ⟨36, 39⟩⟩ ∧
      ∃ edited, shortVersion.SetBack "version" "2" ⟨⟨22, 40⟩, ⟨36, 39⟩⟩ edited ∧
        Podspec.discover? edited.content.toList = some "s" := by
  have hfound : shortVersion.locate "version" = .ok ⟨⟨22, 40⟩, ⟨36, 39⟩⟩ := by decide +kernel
  have hlocator : shortVersion.locator = .podspec "s" := rfl
  have hvalue : checkValue "2" = .ok () := by decide
  have hdiscovered : Podspec.discover? shortVersion.content.toList = some "s" := by decide +kernel
  obtain ⟨edited, hback, hdiscover⟩ := setBack_podspec hlocator hfound hvalue
  refine ⟨hfound, edited, hback, ?_⟩
  rw [← hdiscovered]
  exact hdiscover "1.0" ⟨.plain 1 0 0, false⟩ ⟨.plain 2 0 0, false⟩ (by decide +kernel) (by decide +kernel)
    (by decide +kernel)

end Manifest
end ManifestBump

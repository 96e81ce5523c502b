import ManifestBump.Bump.Plan
import ManifestBump.Proofs.Except
import ManifestBump.Proofs.Manifest.Edit

/-! Planning a bump again.

`Plan.Made` says all there is to know of a plan that could be made. The next version is made from the
reference, and it is a plain version that is read back as it is written; so once it stands in the
manifest, the same plan is made but for what is current (`Plan.make_of_set`). -/
namespace ManifestBump
open Text

/-! ### Manifests in files -/

namespace Manifest
variable {m : Manifest} {tree : FileTree} {path name content : String}

theorem ofNamedText_eq_ok_iff : ofNamedText name content = .ok m ↔
    Format.ofName? name = some m.format ∧ Locator.ofText m.format m.content = .ok m.locator ∧
      m.content = content := by
  constructor
  · intro h
    simp only [ofNamedText, ofText, bind, Except.bind] at h
    split at h
    · rename_i format hformat
      split at h
      · cases h
      · rename_i locator hlocator
        cases h
        have : locator.format = format := Locator.format_of_ofText hlocator
        refine ⟨?_, ?_, rfl⟩
        · rw [hformat, Manifest.format, this]
        · rwa [Manifest.format, this]
    · cases h
  · intro h
    obtain ⟨hformat, hlocator, rfl⟩ := h
    simp only [ofNamedText, hformat, ofText, bind, Except.bind, hlocator]
    rfl

theorem load_eq_ok_iff : load tree path = .ok m ↔
    tree.read path = .ok m.content ∧ Format.ofName? path = some m.format ∧
      Locator.ofText m.format m.content = .ok m.locator := by
  constructor
  · intro h
    simp only [load] at h
    split at h
    · rename_i content hcontent
      obtain ⟨hformat, hlocator, rfl⟩ := ofNamedText_eq_ok_iff.mp h
      exact ⟨hcontent, hformat, hlocator⟩
    · cases h
  · intro h
    obtain ⟨hread, hformat, hlocator⟩ := h
    simp only [load, hread]
    exact ofNamedText_eq_ok_iff.mpr ⟨hformat, hlocator, rfl⟩

/-- What is opened as before and has been written to the same file is loaded from there. -/
theorem load_of_read {later : FileTree} {edited : Manifest} (h : load tree path = .ok m)
    (hlocator : edited.locator = m.locator) (hopen : Locator.ofText m.format edited.content = .ok m.locator)
    (hread : later.read path = .ok edited.content) : load later path = .ok edited := by
  obtain ⟨-, hformat, -⟩ := load_eq_ok_iff.mp h
  have hsame : edited.format = m.format := congrArg Locator.format hlocator
  exact load_eq_ok_iff.mpr ⟨hread, by rw [hsame, hformat], by rw [hsame, hopen, hlocator]⟩

theorem save_eq_ok_iff {after : FileTree} :
    m.save tree path = .ok after ↔ tree.write path m.content = .ok after := by
  unfold save
  cases tree.write path m.content <;> simp

/-- What is written as versions are can be set. -/
theorem checkValue_of_written {value : String} (h : Release.Written value.toList) : checkValue value = .ok () := by
  refine checkValue_eq_ok_iff.mpr fun c hc => ?_
  have hne : ∀ {d : Char}, isVersionChar d = false → c ≠ d := fun hd => ne_of_isVersionChar (h.chars c hc) hd
  exact ⟨⟨hne (by decide), hne (by decide)⟩, hne (by decide), hne (by decide)⟩

end Manifest

/-! ### Plans -/

namespace Plan
variable {tree : FileTree} {root : String} {config : Config} {labels : List String} {source : Source} {p : Plan}

/-- What is known of a plan that could be made. -/
structure Made (tree : FileTree) (root : String) (config : Config) (labels : List String) (source : Source)
    (p : Plan) : Prop where
  file : config.targetFile? = some p.file
  key : p.key = config.targetKey
  loaded : Manifest.load tree (Path.join root p.file) = .ok p.manifest
  currentText : p.manifest.get p.key = .ok p.currentText
  current : Release.parse p.currentText = .ok p.current
  level : config.labelSet.decide labels = .ok p.level
  reference : referenceRelease config p.file p.key source = .ok p.reference
  next : ((p.reference.getD p.current).bump p.level).map (fun next => { next with marked := p.current.marked }) =
    .ok p.next
  commitTemplate : p.commitTemplate = if config.commits then some config.commitTemplate else none
  commentTemplate : p.commentTemplate = if config.comments then some config.commentTemplate else none

/-- **When a plan can be made, and which one.** -/
theorem make_eq_ok_iff : make tree root config labels source = .ok p ↔ Made tree root config labels source p := by
  constructor
  · intro h
    cases hfile : config.targetFile? with
    | none =>
      rw [make, hfile] at h
      cases h
    | some file =>
      simp only [make, hfile, parseRelease, bind_eq_ok_iff, mapError_eq_ok_iff] at h
      obtain ⟨manifest, hmanifest, currentText, hcurrentText, current, hcurrent, level, hlevel, reference, hreference,
        next, hnext, hp⟩ := h
      cases hp
      exact {
        file := hfile
        key := rfl
        loaded := hmanifest
        currentText := hcurrentText
        current := hcurrent
        level := hlevel
        reference := hreference
        next := by rw [hnext, Except.map]
        commitTemplate := rfl
        commentTemplate := rfl }
  · intro h
    obtain ⟨file, key, current, reference, level, next, currentText, manifest, commitTemplate, commentTemplate⟩ := p
    obtain ⟨hfile, hkey, hloaded, hcurrentText, hcurrent, hlevel, hreference, hnext, hcommit, hcomment⟩ := h
    simp only at hfile hkey hloaded hcurrentText hcurrent hlevel hreference hnext hcommit hcomment
    subst hkey hcommit hcomment
    cases hbump : (reference.getD current).bump level with
    | error e =>
      rw [hbump] at hnext
      cases hnext
    | ok bumped =>
      rw [hbump] at hnext
      cases hnext
      simp only [make, hfile, parseRelease, bind_eq_ok_iff, mapError_eq_ok_iff]
      exact ⟨manifest, hloaded, currentText, hcurrentText, current, hcurrent, level, hlevel, reference, hreference,
        bumped, hbump, rfl⟩

/-- The next version has no identifiers, and a mark if the current one has. -/
theorem Made.next_plain (h : Made tree root config labels source p) :
    p.next.version.IsPlain ∧ p.next.marked = p.current.marked := by
  have hnext := h.next
  unfold Release.bump at hnext
  split at hnext
  · rename_i next hbump
    have hnext := Except.ok.inj hnext
    rw [← hnext]
    exact ⟨Version.isPlain_of_bump? hbump, rfl⟩
  · cases hnext

/-- **The next version can be set**, in the place of the current one. -/
theorem Made.exists_set (h : Made tree root config labels source p) : ∃ front back,
    p.manifest.Stands p.key front p.currentText back ∧
      p.manifest.set p.key p.next.text = .ok { p.manifest with content := front ++ p.next.text ++ back } := by
  obtain ⟨path, found, hpath, hfound, -⟩ := Manifest.get_eq_ok_iff.mp h.currentText
  obtain ⟨front, old, back, hstands⟩ := Manifest.exists_stands (Manifest.locate_eq_ok_iff.mpr ⟨path, hpath, hfound⟩)
  obtain rfl : old = p.currentText := by simpa [hstands.get] using h.currentText
  obtain ⟨hplain, -⟩ := h.next_plain
  have hwritten : Release.Written p.next.text.toList := Release.written_of_parse (Release.parse_text_of_isPlain hplain)
  exact ⟨front, back, hstands, hstands.set_eq_ok_iff.mpr ⟨Manifest.checkValue_of_written hwritten, rfl⟩⟩

/-- **Planned again after the next version has been set**, a bump goes from the next version to itself. -/
theorem make_of_set (h : Made tree root config labels source p) (href : p.reference.isSome)
    (hline : p.manifest.locator.OneLine p.key) {edited : Manifest}
    (hset : p.manifest.set p.key p.next.text = .ok edited) {later : FileTree}
    (hread : later.read (Path.join root p.file) = .ok edited.content) :
    make later root config labels source =
      .ok { p with current := p.next, currentText := p.next.text, manifest := edited } := by
  obtain ⟨-, -, hopen⟩ := Manifest.load_eq_ok_iff.mp h.loaded
  obtain ⟨hplain, hmarked⟩ := h.next_plain
  have hparse := Release.parse_text_of_isPlain hplain
  obtain ⟨hlocator, hreopen, hget⟩ := Manifest.get_of_set hopen hline h.currentText
    (Release.written_of_parse h.current) (Release.written_of_parse hparse) (Release.dot_mem_text p.next) hset
  obtain ⟨reference, hsome⟩ := Option.isSome_iff_exists.mp href
  have hnext := h.next
  rw [hsome, Option.getD_some, ← hmarked] at hnext
  refine make_eq_ok_iff.mpr {
    file := h.file
    key := h.key
    loaded := Manifest.load_of_read h.loaded hlocator hreopen hread
    currentText := hget
    current := hparse
    level := h.level
    reference := h.reference
    next := ?_
    commitTemplate := h.commitTemplate
    commentTemplate := h.commentTemplate }
  simp only [hsome, Option.getD_some]
  exact hnext

end Plan
end ManifestBump

import ManifestBump.Proofs.Yaml.Edit
import ManifestBump.Proofs.Yaml.Others
import ManifestBump.Proofs.Yaml.Row

/-! A value without quotes exchanged for another one.

What stands without quotes may be exchanged for every text that can stand so (`Plain`). The key reads it
(`leafOf?_plain`), and for a key without a colon the line opens the blocks it opened before (`parentOf?_visible`), so it
is found where the old value was found (`find?_plain`). -/
namespace ManifestBump.Yaml
open Text

/-- The characters of a text that stands without quotes. -/
def Plain.text (value : Plain) : List Char := value.first :: value.rest

theorem Plain.chars_text (value : Plain) : ∀ c ∈ value.text, inLine c = true ∧ isQuote c = false := by
  obtain ⟨hblank, hquote, -⟩ := value.visible
  exact List.forall_mem_cons.mpr ⟨⟨inLine_of_not_isBlank hblank, hquote⟩, value.chars⟩

theorem Plain.visible_text (value : Plain) : Visible value.text := by
  obtain ⟨hblank, -, -⟩ := value.visible
  refine ⟨by simp [text], stops_cons_iff.mpr ?_, fun c hc => (value.chars_text c hc).1⟩
  by_contra hindent
  rw [isBlank_of_isIndent (by simpa using hindent)] at hblank
  cases hblank

/-- The value of a key without quotes in front of it is exchanged for another text that can stand so. -/
theorem leafOf?_plain {key line : List Char} {indent : Nat} {slot : Slot} (value : Plain)
    (h : leafOf? key line = some (indent, slot)) (hbare : ∀ c ∈ slot.lead.getLast?, isQuote c = false) :
    Visible slot.value ∧ ∃ tail, line = slot.lead ++ slot.value ++ tail ∧
      leafOf? key (slot.lead ++ value.text ++ tail) = some (indent, ⟨slot.lead, value.text, slot.close⟩) := by
  obtain ⟨lead, rest, inner, hfront, hinner, rfl⟩ := leafOf?_eq_some_iff.mp h
  obtain ⟨blanks, text, scalar, rfl, hne, hblanks, hstops, hscalar, rfl⟩ := value?_eq_some_iff.mp hinner
  obtain ⟨rfl, hspelled, hmax⟩ := frontOf?_eq_some_iff.mp hfront
  have hvisible := inLine_of_scalar? hscalar
  cases scalar?_cases hscalar with
  | quoted hquote _ _ => simp [Slot.behind, hquote] at hbare
  | @bare c old tail trail hquote hblank hhash htrail =>
    refine ⟨⟨by simp [Slot.behind], ?_, by simpa [Slot.behind] using hvisible⟩, tail, by simp [Slot.behind], ?_⟩
    · exact stops_cons_iff.mpr (stops_cons_iff.mp hstops)
    · have hnew : value? (blanks ++ (value.text ++ tail)) = some ⟨blanks ++ [], value.text, trail⟩ := by
        refine value?_eq_some_iff.mpr ⟨blanks, _, _, rfl, hne, hblanks, ?_, scalar?_plain value htrail, rfl⟩
        exact stops_cons_iff.mpr (stops_cons_iff.mp value.visible_text.first)
      refine leafOf?_eq_some_iff.mpr ⟨lead, blanks ++ (value.text ++ tail), _, ?_, hnew, rfl⟩
      exact frontOf?_eq_some_iff.mpr ⟨by simp [Slot.behind], hspelled, hmax⟩

/-- For a key without a colon, a line opens a block whatever value stands behind its first colon. -/
theorem parentOf?_visible {key u old new w : List Char} (hkey : ':' ∉ key) (hcolon : ':' ∈ u) (hu : '\n' ∉ u)
    (hold : Visible old) (hnew : Visible new) : parentOf? key (u ++ new ++ w) = parentOf? key (u ++ old ++ w) := by
  obtain ⟨p, q, rfl, hp⟩ := List.eq_append_cons_of_mem hcolon
  have hq : '\n' ∉ q := fun hmem => hu (by simp [hmem])
  have hcut : ∀ value, p ++ ':' :: q ++ value ++ w = p ++ ':' :: (q ++ value ++ w) := by simp
  rw [hcut, hcut, parentOf?_colon hkey hp, parentOf?_colon hkey hp, opensBlock_visible hq hnew,
    opensBlock_visible hq hold]

/-- **Where a value without quotes was found, a text that can stand so is found** once it stands there, by any path
whose keys are in one line and whose parents hold no colon. -/
theorem find?_plain {e : Edit} (value : Plain) (hnew : e.new = value.text) {path : KeyPath}
    (hfeeds : ∀ key ∈ path.segments, '\n' ∉ key.toList) (hcolons : ∀ key ∈ path.parents, ':' ∉ key.toList)
    (hbare : ∀ c ∈ e.front.getLast?, isQuote c = false) {found : Occurrence} (h : find? e.before path = some found)
    (hvalue : found.value = e.oldSpan) : ∃ found', find? e.after path = some found' ∧ found'.value = e.newSpan := by
  obtain ⟨hleaf, -⟩ := KeyPath.forall_toList (P := fun name => '\n' ∉ name) hfeeds
  have hvisible := value.visible_text
  have hfeed : '\n' ∉ e.new := by
    rw [hnew]
    exact fun hmem => absurd (hvisible.chars _ hmem) (by decide)
  refine find?_carried hfeeds hfeed (fun line indent slot hslot hold hsuffix => ?_) h hvalue
  obtain ⟨before, hfront⟩ := hsuffix
  have hlast : ∀ c ∈ slot.lead.getLast?, isQuote c = false := by
    intro c hc
    refine hbare c ?_
    rw [← hfront, List.getLast?_append, Option.mem_def.mp hc]
    rfl
  obtain ⟨hseen, tail, rfl, hreads⟩ := leafOf?_plain value hslot hlast
  obtain ⟨hcolon, hlead, -⟩ := lead_of_leafOf? hleaf hslot
  obtain ⟨lead, old, close⟩ := slot
  obtain rfl : old = e.old := hold
  rw [← hnew] at hreads hvisible
  refine ⟨tail, rfl, hcolon, by simp [hseen.ne_nil], ⟨indent, close, hslot, hreads⟩, fun key hkey indent hopens => ?_⟩
  obtain ⟨name, hname, rfl⟩ := List.mem_map.mp hkey
  rwa [parentOf?_visible (hcolons name hname) hcolon hlead hseen hvisible] at hopens

end ManifestBump.Yaml

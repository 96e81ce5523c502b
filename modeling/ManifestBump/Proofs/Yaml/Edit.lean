import ManifestBump.Proofs.Yaml.Exchange
import ManifestBump.Proofs.Yaml.Swap

/-! The lookup after a value has been exchanged.

When the line of a value becomes one on which the new value is found, and opens no block that it did not open
(`Exchanged`), a lookup finds the new value where it found the old one (`find?_carried`). That is so when one version is
exchanged for another (`find?_exchange`). -/
namespace ManifestBump.Yaml
open Text

variable {e : Edit}

/-! ### Lookups away from the value -/

section Apart
variable {leaf : List Char} {ls : List (List Char)} {look : Nat → Option Occurrence}

/-- Away from the value, something else is found. -/
theorem Local.value_ne (h : Local leaf ls look) {offset : Nat} {found : Occurrence}
    (hfound : look offset = Option.some found)
    (hapart : offset + ls.flatten.length < e.stop ∨ e.front.length < offset) : found.value ≠ e.oldSpan := by
  intro hvalue
  obtain ⟨hstart, hstop⟩ := (h.some offset found hfound).within
  rw [hvalue] at hstart hstop
  simp only [Edit.oldSpan] at hstart hstop
  omega

/-- Away from the value, nothing but places changes. -/
theorem Local.carried (h : Local leaf ls look) {offset : Nat}
    (hapart : offset + ls.flatten.length < e.stop ∨ e.front.length < offset) (offset' : Nat) :
    e.Carried (look offset) (look offset') :=
  ⟨h.none offset offset', fun _ hfound hvalue => absurd hvalue (h.value_ne hfound hapart)⟩

end Apart

/-! ### Lookups with the line of the value -/

/-- A line on which the old value stands behind the key that is looked for. The key reads the new value there, and no
other key of the path opens a block that it did not open. -/
structure Exchanged (e : Edit) (leaf : List Char) (keys : List (List Char)) (u w : List Char) : Prop where
  colon_mem : ':' ∈ u
  /-- The line goes on where the value begins. -/
  behind_ne : e.old ++ w ≠ []
  leaf : ∃ indent close, leafOf? leaf (u ++ e.old ++ w) = some (indent, ⟨u, e.old, close⟩) ∧
    leafOf? leaf (u ++ e.new ++ w) = some (indent, ⟨u, e.new, close⟩)
  parents : ∀ key ∈ keys, ∀ indent,
    parentOf? key (u ++ e.new ++ w) = some indent → parentOf? key (u ++ e.old ++ w) = some indent

section Exchanged
variable {leaf : List Char} {keys : List (List Char)} {u w : List Char} (hline : Exchanged e leaf keys u w)
include hline

/-- The next line begins behind the beginning of the value. -/
theorem Exchanged.lt_next {start : Nat} (hplace : start + u.length = e.front.length) :
    e.front.length < start + (u ++ e.old ++ w).length := by
  have hpos := List.length_pos_iff.mpr hline.behind_ne
  simp only [List.length_append] at hpos ⊢
  omega

theorem leafIn_exchange (indent offset : Nat) (hplace : offset + u.length = e.front.length) :
    e.Carried (leafIn leaf indent offset (u ++ e.old ++ w)) (leafIn leaf indent offset (u ++ e.new ++ w)) := by
  obtain ⟨indent', close, hold, hnew⟩ := hline.leaf
  rw [leafIn, leafIn, hold, hnew, Option.bind_some, Option.bind_some]
  split
  · refine ⟨by rintro ⟨⟩, fun found _ _ => ⟨_, rfl, ?_⟩⟩
    simp only [Slot.occurrence, Edit.newSpan, hplace]
  · exact Follows.nothing

/-- Under the line of the value nothing is found that was not found before. -/
theorem parentIn_exchange {inner : Nat → List (List Char) → Option Occurrence}
    (hinner : ∀ ls, Local leaf ls fun offset => inner offset ls) {key : List Char} (hkey : key ∈ keys)
    (indent : Nat) (back : List (List Char)) {offset : Nat} (hplace : offset + u.length = e.front.length) :
    e.Carried (parentIn inner key indent offset (u ++ e.old ++ w) back)
      (parentIn inner key indent offset (u ++ e.new ++ w) back) := by
  constructor
  · intro hnone
    unfold parentIn at hnone ⊢
    split
    · rename_i hopens
      rw [if_pos (hline.parents key hkey indent hopens)] at hnone
      cases hblock : Block.childLines? indent back with
      | none => rfl
      | some block =>
        rw [hblock] at hnone
        exact (hinner block).none _ _ hnone
    · rfl
  · intro found hfound hvalue
    unfold parentIn at hfound
    split at hfound
    · obtain ⟨block, -, hfound⟩ := Option.bind_eq_some_iff.mp hfound
      exact absurd hvalue ((hinner block).value_ne hfound (.inr (hline.lt_next hplace)))
    · cases hfound

/-- **The line of the value is exchanged.** -/
theorem Exchanged.swap {start : Nat} (hplace : start + u.length = e.front.length) :
    Swap (fun found => found.value = e.oldSpan) (fun _ found' => found'.value = e.newSpan) leaf
      (u ++ e.old ++ w) (u ++ e.new ++ w) start where
  peers := by
    rw [List.append_assoc, List.append_assoc]
    exact peers_of_colon hline.colon_mem _ _
  front hlocal offset hle := by
    have hpos := List.length_pos_iff.mpr (List.ne_nil_of_mem hline.colon_mem)
    exact hlocal.carried (.inl (by simp only [Edit.stop]; omega)) offset
  back hlocal := hlocal.carried (.inr (hline.lt_next hplace)) _
  leaf indent := leafIn_exchange hline indent start hplace

end Exchanged

/-! ### Texts with the line of the value -/

/-- **Where the old value was found in a text, the new one is found** once it stands there, by any path whose keys hold
no line feeds, if its line is exchanged in this sense. -/
theorem find?_carried {path : KeyPath} (hfeeds : ∀ key ∈ path.segments, '\n' ∉ key.toList) (hnew : '\n' ∉ e.new)
    (hline : ∀ line indent slot, leafOf? path.leaf.toList line = some (indent, slot) → slot.value = e.old →
      slot.lead <:+ e.front → ∃ tail, line = slot.lead ++ e.old ++ tail ∧
        Exchanged e path.leaf.toList (path.parents.map String.toList) slot.lead tail)
    {found : Occurrence} (h : find? e.before path = some found) (hvalue : found.value = e.oldSpan) :
    ∃ found', find? e.after path = some found' ∧ found'.value = e.newSpan := by
  obtain ⟨hfeed, -⟩ := KeyPath.forall_toList (P := fun name => '\n' ∉ name) hfeeds
  obtain ⟨front, back, indent, slot, rest, hlines, hslot, hplace⟩ := exists_line_of_find? hfeeds h
  -- The value on the line is the old one.
  have htext : e.before = (front.flatten ++ slot.lead) ++ slot.value ++ (rest ++ back.flatten) := by
    rw [← flatten_lines e.before, hlines]
    simp
  have hspan : (⟨(front.flatten ++ slot.lead).length,
      (front.flatten ++ slot.lead).length + slot.value.length⟩ : Span) = e.oldSpan := by
    rw [← hvalue, hplace, List.length_append, Slot.occurrence]
  obtain ⟨hfront, hold, hback⟩ := Edit.cut_of_oldSpan htext hspan
  obtain ⟨tail, htail, hexchanged⟩ := hline _ _ _ hslot hold.symm ⟨front.flatten, hfront.symm⟩
  obtain ⟨hcolon, hlead, hin⟩ := lead_of_leafOf? hfeed hslot
  have hold' : '\n' ∉ e.old := by
    rw [hold]
    exact fun hmem => absurd (hin _ hmem) (by decide)
  rw [← hold] at hlines htail
  obtain rfl := List.append_cancel_left htail
  -- The lines are the same but for this one.
  have hlines' : lines e.after = front ++ (slot.lead ++ e.new ++ rest) :: back := by
    rw [Edit.after, hfront, hback]
    exact lines_swap hlines (List.ne_nil_of_mem hcolon) hlead hold' hnew
  have hstart : front.flatten.length + slot.lead.length = e.front.length := by rw [hfront, List.length_append]
  rw [find?_eq_findLines hfeeds, hlines] at h
  rw [find?_eq_findLines hfeeds, hlines']
  exact (findLines_follows (hexchanged.swap hstart)
    (fun key hkey _ hinner indent back => parentIn_exchange hexchanged hinner hkey indent back hstart)
    front back (Nat.zero_add _)).some _ h hvalue

/-! ### Versions -/

/-- **Where the old version was found in a text, the new one is found** once it stands there, by any path
whose keys hold neither dots nor line feeds. -/
theorem find?_exchange {e : Exchange} {path : KeyPath} (hdots : ∀ key ∈ path.segments, '.' ∉ key.toList)
    (hfeeds : ∀ key ∈ path.segments, '\n' ∉ key.toList) {found : Occurrence}
    (h : find? e.before path = some found) (hvalue : found.value = e.oldSpan) :
    ∃ found', find? e.after path = some found' ∧ found'.value = e.newSpan := by
  obtain ⟨-, hkeys⟩ := KeyPath.forall_toList (P := fun name => '.' ∉ name) hdots
  obtain ⟨hleaf, -⟩ := KeyPath.forall_toList (P := fun name => '\n' ∉ name) hfeeds
  have hnew : '\n' ∉ e.new := fun hmem => absurd (e.new_written.chars _ hmem) (by decide)
  refine find?_carried hfeeds hnew (fun line indent slot hslot hold _ => ?_) h hvalue
  obtain ⟨tail, rfl, hreads⟩ := leafOf?_exchange hslot hold
  obtain ⟨hcolon, hlead, -⟩ := lead_of_leafOf? hleaf hslot
  have hcut : slot = ⟨slot.lead, e.old, slot.close⟩ := by rw [← hold]
  rw [hcut] at hslot
  exact ⟨tail, rfl, hcolon, by simp [e.old_written.ne_nil], ⟨indent, slot.close, hslot, hreads⟩,
    fun key hkey indent hopens => parentOf?_exchange (hkeys key hkey) hlead hopens⟩

end ManifestBump.Yaml

import ManifestBump.Proofs.Text.Span
import ManifestBump.Proofs.Yaml.Lookup

/-! Lookups and the lines they are in.

What a lookup by lines finds is the value of the last key on one of its lines, the same one wherever the lines
stand (`findLines_local`). -/
namespace ManifestBump.Yaml
open Text

/-- A value of a key on one of these lines. -/
def StandsOn (leaf : List Char) (offset : Nat) (ls : List (List Char)) (found : Occurrence) : Prop :=
  ∃ front line back indent slot, ls = front ++ line :: back ∧ leafOf? leaf line = some (indent, slot) ∧
    found = slot.occurrence (offset + front.flatten.length)

theorem StandsOn.cons {leaf line : List Char} {offset : Nat} {rest : List (List Char)} {found : Occurrence}
    (h : StandsOn leaf (offset + line.length) rest found) : StandsOn leaf offset (line :: rest) found := by
  obtain ⟨front, next, back, indent, slot, rfl, hleaf, rfl⟩ := h
  refine ⟨line :: front, next, back, indent, slot, rfl, hleaf, ?_⟩
  rw [List.flatten_cons, List.length_append, Nat.add_assoc]

theorem StandsOn.append {leaf : List Char} {offset : Nat} {block : List (List Char)} {found : Occurrence}
    (h : StandsOn leaf offset block found) (others : List (List Char)) :
    StandsOn leaf offset (block ++ others) found := by
  obtain ⟨front, next, back, indent, slot, rfl, hleaf, rfl⟩ := h
  exact ⟨front, next, back ++ others, indent, slot, by simp, hleaf, rfl⟩

theorem StandsOn.within {leaf : List Char} {offset : Nat} {ls : List (List Char)} {found : Occurrence}
    (h : StandsOn leaf offset ls found) :
    offset ≤ found.value.start ∧ found.value.stop ≤ offset + ls.flatten.length := by
  obtain ⟨front, line, back, indent, slot, rfl, hleaf, rfl⟩ := h
  obtain ⟨rest, rfl⟩ := leafOf?_text hleaf
  simp only [Slot.occurrence, List.flatten_append, List.flatten_cons, List.length_append]
  omega

/-- A lookup that finds a value on these lines or finds none, the same wherever the lines stand. -/
structure Local (leaf : List Char) (ls : List (List Char)) (look : Nat → Option Occurrence) : Prop where
  moves : ∀ offset, look offset = (look 0).map (Occurrence.moved offset)
  some : ∀ offset found, look offset = some found → StandsOn leaf offset ls found

namespace Local
variable {leaf : List Char} {ls : List (List Char)} {look look' : Nat → Option Occurrence}

theorem none (h : Local leaf ls look) (offset offset' : Nat) (hnone : look offset = Option.none) :
    look offset' = Option.none := by
  rw [h.moves, Option.map_eq_none_iff] at hnone
  rw [h.moves, hnone, Option.map_none]

/-- What is found is found at any other place too. -/
theorem exists_moved (h : Local leaf ls look) {offset : Nat} {found : Occurrence}
    (hfound : look offset = Option.some found) (offset' : Nat) :
    ∃ base : Occurrence, found = base.moved offset ∧ look offset' = Option.some (base.moved offset') := by
  rw [h.moves] at hfound
  obtain ⟨base, hbase, rfl⟩ := Option.map_eq_some_iff.mp hfound
  exact ⟨base, rfl, by rw [h.moves, hbase, Option.map_some]⟩

theorem nothing : Local leaf ls fun _ => Option.none := ⟨fun _ => rfl, by rintro _ _ ⟨⟩⟩

theorem or (h : Local leaf ls look) (h' : Local leaf ls look') :
    Local leaf ls fun offset => (look offset).or (look' offset) := by
  constructor
  · intro offset
    show (look offset).or (look' offset) = ((look 0).or (look' 0)).map _
    rw [h.moves, h'.moves]
    cases look 0 <;> rfl
  · intro offset found hfound
    rcases Option.or_eq_some_iff.mp hfound with hfound | ⟨-, hfound⟩
    · exact h.some _ _ hfound
    · exact h'.some _ _ hfound

theorem cons (h : Local leaf ls look) (line : List Char) :
    Local leaf (line :: ls) fun offset => look (offset + line.length) := by
  constructor
  · intro offset
    show look (offset + line.length) = (look (0 + line.length)).map _
    rw [h.moves, h.moves (0 + line.length), Option.map_map]
    refine Option.map_congr fun found _ => ?_
    rw [Function.comp_apply, Occurrence.moved_moved, Nat.zero_add]
  · intro offset found hfound
    exact (h.some _ _ hfound).cons

theorem append (h : Local leaf ls look) (others : List (List Char)) : Local leaf (ls ++ others) look :=
  ⟨h.moves, fun offset found hfound => (h.some offset found hfound).append others⟩

end Local

theorem leafIn_local (leaf : List Char) (indent : Nat) (line : List Char) (rest : List (List Char)) :
    Local leaf (line :: rest) fun offset => leafIn leaf indent offset line := by
  constructor
  · intro offset
    show (leafOf? leaf line).bind _ = ((leafOf? leaf line).bind _).map _
    cases leafOf? leaf line with
    | none => rfl
    | some found =>
      rw [Option.bind_some, Option.bind_some]
      split
      · rw [Option.map_some, ← Slot.occurrence_eq_moved]
      · rfl
  · intro offset found h
    obtain ⟨⟨indent', slot⟩, hleaf, h⟩ := Option.bind_eq_some_iff.mp h
    split at h
    · cases h
      exact ⟨[], line, rest, indent', slot, rfl, hleaf, rfl⟩
    · cases h

theorem findLeaf_local (leaf : List Char) (indent : Nat) (ls : List (List Char)) :
    Local leaf ls fun offset => findLeaf leaf indent offset ls := by
  induction ls with
  | nil => exact Local.nothing
  | cons line rest ih => exact (leafIn_local leaf indent line rest).or (ih.cons line)

section Parent
variable {leaf : List Char} {inner : Nat → List (List Char) → Option Occurrence}
  (hinner : ∀ ls, Local leaf ls fun offset => inner offset ls)
include hinner

theorem parentIn_local (key : List Char) (indent : Nat) (line : List Char) (rest : List (List Char)) :
    Local leaf (line :: rest) fun offset => parentIn inner key indent offset line rest := by
  unfold parentIn
  split
  · cases hblock : Block.childLines? indent rest with
    | none => exact Local.nothing
    | some block =>
      obtain ⟨⟨others, rfl⟩, -⟩ := exists_of_childLines? hblock
      exact ((hinner block).append others).cons line
  · exact Local.nothing

theorem findParent_local (key : List Char) (indent : Nat) (ls : List (List Char)) :
    Local leaf ls fun offset => findParent inner key indent offset ls := by
  induction ls with
  | nil => exact Local.nothing
  | cons line rest ih => exact (parentIn_local hinner key indent line rest).or (ih.cons line)

end Parent

/-- **A lookup by lines finds a value on its lines**, or finds none wherever they stand. -/
theorem findLines_local (leaf : List Char) (keys ls : List (List Char)) :
    Local leaf ls fun offset => findLines leaf keys offset ls := by
  induction keys generalizing ls with
  | nil =>
    unfold findLines
    cases firstIndent? ls with
    | none => exact Local.nothing
    | some indent => exact findLeaf_local leaf indent ls
  | cons key keys ih =>
    unfold findLines
    cases firstIndent? ls with
    | none => exact Local.nothing
    | some indent => exact findParent_local ih key indent ls

end ManifestBump.Yaml

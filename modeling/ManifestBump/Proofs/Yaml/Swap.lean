import ManifestBump.Proofs.Text.Edit
import ManifestBump.Proofs.Yaml.Local

/-! One line exchanged for another.

When a line becomes another one with the same indentation, all blocks keep their lines (`childLines?_swap`).
So what a lookup finds follows what it found before, in every sense in which it does on the line itself and on
the lines in front and behind (`findLines_follows`). -/
namespace ManifestBump.Yaml
open Text

/-! ### Lines that stand alike -/

/-- Lines with one indentation, both with content or both without. -/
structure Peers (line line' : List Char) : Prop where
  indentOf : Block.indentOf line' = Block.indentOf line
  isContent : Block.isContent line' = Block.isContent line

/-- From its first colon on, a line may change without a change of its indentation. -/
theorem indentOf_append {u : List Char} (h : ':' ∈ u) (rest : List Char) :
    Block.indentOf (u ++ rest) = Block.indentOf u := by
  obtain ⟨a, b, rfl⟩ := List.append_of_mem h
  have hcolon : isIndent ':' = false := by decide
  rw [Block.indentOf, Block.indentOf, List.append_assoc, List.cons_append, takeWhile_append_cons hcolon,
    takeWhile_append_cons hcolon]

theorem isContent_append {u : List Char} (h : ':' ∈ u) (rest : List Char) :
    Block.isContent (u ++ rest) = Block.isContent u := by
  obtain ⟨a, b, rfl⟩ := List.append_of_mem h
  have hcolon : isBlank ':' = false := by decide
  rw [Block.isContent, Block.isContent, List.append_assoc, List.cons_append, dropWhile_append_cons hcolon,
    dropWhile_append_cons hcolon]
  cases a.dropWhile isBlank <;> rfl

/-- Lines that agree up to a colon. -/
theorem peers_of_colon {u : List Char} (h : ':' ∈ u) (rest rest' : List Char) : Peers (u ++ rest) (u ++ rest') :=
  ⟨by rw [indentOf_append h, indentOf_append h], by rw [isContent_append h, isContent_append h]⟩

/-- The child blocks of lines with one line among them exchanged. -/
inductive Blocks (line line' : List Char) (front back : List (List Char)) :
    Option (List (List Char)) → Option (List (List Char)) → Prop where
  | none : Blocks line line' front back none none
  | apart {block others : List (List Char)} (h : front = block ++ others) :
    Blocks line line' front back (some block) (some block)
  | across {more others : List (List Char)} (h : back = more ++ others) :
    Blocks line line' front back (some (front ++ line :: more)) (some (front ++ line' :: more))

section Peers
variable {line line' : List Char} (hline : Peers line line')
include hline

theorem firstIndent?_swap (front back : List (List Char)) :
    firstIndent? (front ++ line' :: back) = firstIndent? (front ++ line :: back) := by
  unfold firstIndent?
  rw [List.find?_append, List.find?_append, List.find?_cons, List.find?_cons, hline.isContent]
  cases front.find? Block.isContent with
  | some line => rfl
  | none =>
    cases Block.isContent line with
    | true => exact congrArg some hline.indentOf
    | false => rfl

theorem childLines?_swap (parent : Nat) (front back : List (List Char)) :
    Blocks line line' front back (Block.childLines? parent (front ++ line :: back))
      (Block.childLines? parent (front ++ line' :: back)) := by
  induction front with
  | nil =>
    rw [List.nil_append, List.nil_append, Block.childLines?, Block.childLines?, hline.isContent, hline.indentOf]
    split
    · split
      · exact .across (List.takeWhile_append_dropWhile).symm
      · exact .none
    · cases hblock : Block.childLines? parent back with
      | none => exact .none
      | some block =>
        obtain ⟨⟨others, hback⟩, -⟩ := exists_of_childLines? hblock
        exact .across hback
  | cons first front ih =>
    rw [List.cons_append, List.cons_append, Block.childLines?, Block.childLines?]
    split
    · split
      · -- The block ends among the lines in front, or at the line itself, or behind it.
        set p : List Char → Bool := fun next => !Block.isContent next ||
          decide (Block.indentOf first ≤ Block.indentOf next) with hp
        have hsame : p line' = p line := by
          simp only [hp, hline.isContent, hline.indentOf]
        rw [List.takeWhile_append, List.takeWhile_append, List.takeWhile_cons, List.takeWhile_cons, hsame]
        by_cases hall : (front.takeWhile p).length = front.length
        · rw [if_pos hall, if_pos hall]
          cases p line with
          | true => exact .across (List.takeWhile_append_dropWhile (p := p)).symm
          | false =>
            have hwhole : first :: front = first :: (front ++ []) ++ [] := by simp
            exact .apart hwhole
        · rw [if_neg hall, if_neg hall]
          have hcut : first :: front = first :: front.takeWhile p ++ front.dropWhile p := by simp
          exact .apart hcut
      · exact .none
    · generalize Block.childLines? parent (front ++ line :: back) = a at ih
      generalize Block.childLines? parent (front ++ line' :: back) = b at ih
      cases ih with
      | none => exact .none
      | apart h => exact .apart (by rw [h, List.cons_append])
      | across h => exact .across h

end Peers

/-! ### Lookups -/

/-- A line that begins at `start` becomes another one, and what is found on it and on all other lines
follows what was found there. -/
structure Swap (P : Occurrence → Prop) (Q : Occurrence → Occurrence → Prop) (leaf line line' : List Char)
    (start : Nat) : Prop where
  peers : Peers line line'
  front : ∀ {ls : List (List Char)} {look : Nat → Option Occurrence}, Local leaf ls look →
    ∀ offset, offset + ls.flatten.length ≤ start → Follows P Q (look offset) (look offset)
  back : ∀ {ls : List (List Char)} {look : Nat → Option Occurrence}, Local leaf ls look →
    Follows P Q (look (start + line.length)) (look (start + line'.length))
  leaf : ∀ indent, Follows P Q (leafIn leaf indent start line) (leafIn leaf indent start line')

section Swap
variable {P : Occurrence → Prop} {Q : Occurrence → Occurrence → Prop} {leaf line line' : List Char} {start : Nat}
  (hswap : Swap P Q leaf line line' start)
include hswap

/-- A lookup through lines follows when what it looks for on a line does. -/
theorem loop_follows {loop : Nat → List (List Char) → Option Occurrence}
    {answer : Nat → List Char → List (List Char) → Option Occurrence}
    (hcons : ∀ offset line rest, loop offset (line :: rest) =
      (answer offset line rest).or (loop (offset + line.length) rest))
    (hlocal : ∀ ls, Local leaf ls fun offset => loop offset ls) {back : List (List Char)}
    (hfront : ∀ offset first front, offset + first.length + front.flatten.length = start →
      Follows P Q (answer offset first (front ++ line :: back)) (answer offset first (front ++ line' :: back)))
    (hat : Follows P Q (answer start line back) (answer start line' back))
    {front : List (List Char)} {offset : Nat} (hplace : offset + front.flatten.length = start) :
    Follows P Q (loop offset (front ++ line :: back)) (loop offset (front ++ line' :: back)) := by
  induction front generalizing offset with
  | nil =>
    obtain rfl : offset = start := by simpa using hplace
    rw [List.nil_append, List.nil_append, hcons, hcons]
    exact hat.or (hswap.back (hlocal back))
  | cons first front ih =>
    rw [List.flatten_cons, List.length_append, ← Nat.add_assoc] at hplace
    rw [List.cons_append, List.cons_append, hcons, hcons]
    exact (hfront offset first front hplace).or (ih hplace)

/-- **What a lookup in lines finds follows what it found** before one line was exchanged, if what is found
in a block under that line does. -/
theorem findLines_follows {keys : List (List Char)}
    (hparent : ∀ key ∈ keys, ∀ {inner : Nat → List (List Char) → Option Occurrence},
      (∀ ls, Local leaf ls fun offset => inner offset ls) → ∀ indent back,
      Follows P Q (parentIn inner key indent start line back) (parentIn inner key indent start line' back))
    (front back : List (List Char)) {offset : Nat} (hplace : offset + front.flatten.length = start) :
    Follows P Q (findLines leaf keys offset (front ++ line :: back))
      (findLines leaf keys offset (front ++ line' :: back)) := by
  induction keys generalizing front back offset with
  | nil =>
    rw [findLines, findLines, firstIndent?_swap hswap.peers]
    cases firstIndent? (front ++ line :: back) with
    | none => exact Follows.nothing
    | some indent =>
      refine loop_follows hswap (fun _ _ _ => rfl) (findLeaf_local leaf indent) ?_ (hswap.leaf indent) hplace
      intro offset first front hplace
      refine hswap.front (leafIn_local leaf indent first []) offset ?_
      rw [List.flatten_singleton]
      omega
  | cons key keys ih =>
    have hrest := ih fun key hkey => hparent key (List.mem_cons_of_mem _ hkey)
    have hinner := fun ls => findLines_local leaf keys ls
    rw [findLines, findLines, firstIndent?_swap hswap.peers]
    cases firstIndent? (front ++ line :: back) with
    | none => exact Follows.nothing
    | some indent =>
      refine loop_follows hswap (fun _ _ _ => rfl) (findParent_local hinner key indent) ?_
        (hparent key List.mem_cons_self hinner indent back) hplace
      intro offset first front hplace
      show Follows P Q (parentIn _ _ _ _ _ _) (parentIn _ _ _ _ _ _)
      rw [parentIn, parentIn]
      split
      · -- The block under this key may hold the line.
        have hblocks := childLines?_swap hswap.peers indent front back
        generalize Block.childLines? indent (front ++ line :: back) = a at hblocks
        generalize Block.childLines? indent (front ++ line' :: back) = b at hblocks
        cases hblocks with
        | none => exact Follows.nothing
        | @apart block others h =>
          refine hswap.front (hinner block) _ ?_
          rw [h, List.flatten_append, List.length_append] at hplace
          omega
        | across h => exact hrest front _ hplace
      · exact Follows.nothing

end Swap

/-! ### Texts -/

/-- **A value that was found stands behind a key on one of the lines.** -/
theorem exists_line_of_find? {text : List Char} {path : KeyPath} (hfeeds : ∀ key ∈ path.segments, '\n' ∉ key.toList)
    {found : Occurrence} (h : find? text path = some found) :
    ∃ front back indent slot rest, lines text = front ++ (slot.lead ++ slot.value ++ rest) :: back ∧
      leafOf? path.leaf.toList (slot.lead ++ slot.value ++ rest) = some (indent, slot) ∧
      found = slot.occurrence front.flatten.length := by
  rw [find?_eq_findLines hfeeds] at h
  obtain ⟨front, line, back, indent, slot, hlines, hleaf, rfl⟩ := (findLines_local _ _ _).some _ _ h
  obtain ⟨rest, rfl⟩ := leafOf?_text hleaf
  exact ⟨front, back, indent, slot, rest, hlines, hleaf, by rw [Nat.zero_add]⟩

/-- What leads to the value of a key holds a colon and no line feed, and the value is in one line too. -/
theorem lead_of_leafOf? {key line : List Char} {indent : Nat} {slot : Slot} (hkey : '\n' ∉ key)
    (h : leafOf? key line = some (indent, slot)) :
    ':' ∈ slot.lead ∧ '\n' ∉ slot.lead ∧ ∀ c ∈ slot.value, inLine c = true := by
  obtain ⟨lead, rest, inner, hfront, hinner, rfl⟩ := leafOf?_eq_some_iff.mp h
  obtain ⟨-, hspelled, -⟩ := frontOf?_eq_some_iff.mp hfront
  obtain ⟨-, hline⟩ := inLine_of_value? hinner
  refine ⟨?_, ?_, fun c hc => hline c (List.mem_append_right _ hc)⟩
  · obtain ⟨front, rfl, -⟩ := hspelled.exists_colon
    simp [Slot.behind]
  · intro hmem
    rcases List.mem_append.mp hmem with hmem | hmem
    · exact not_mem_of_spelled hkey hspelled hmem
    · exact absurd (hline _ (List.mem_append_left _ hmem)) (by decide)

end ManifestBump.Yaml

import ManifestBump.Proofs.Yaml.Block
import ManifestBump.Proofs.Yaml.Line

/-! The lookup by lines.

For keys without line feeds, the lookup that goes through a text place by place is one that goes
through its lines (`find?_eq_findLines`): the last key of a path is the first line at the indentation
of its mapping that holds a value for it, and an earlier key is the first such line whose block holds
the rest of the path. -/
namespace ManifestBump.Yaml
open Text

/-! ### Lookup in lines -/

/-- The indentation of the first line with content. -/
def firstIndent? (ls : List (List Char)) : Option Nat := (ls.find? Block.isContent).map Block.indentOf

/-- The value of a key on a line that begins at an offset. -/
def leafIn (key : List Char) (indent offset : Nat) (line : List Char) : Option Occurrence :=
  (leafOf? key line).bind fun found =>
    if found.1 = indent then some (found.2.occurrence offset) else none

/-- The value of a key on the first line that holds one. -/
def findLeaf (key : List Char) (indent : Nat) : (offset : Nat) → List (List Char) → Option Occurrence
  | _, [] => none
  | offset, line :: rest =>
    (leafIn key indent offset line).or (findLeaf key indent (offset + line.length) rest)

/-- What the block under a key on a line holds. -/
def parentIn (inner : Nat → List (List Char) → Option Occurrence) (key : List Char) (indent offset : Nat)
    (line : List Char) (rest : List (List Char)) : Option Occurrence :=
  if parentOf? key line = some indent then
    (Block.childLines? indent rest).bind (inner (offset + line.length))
  else none

/-- What the first block under a key holds that holds anything. -/
def findParent (inner : Nat → List (List Char) → Option Occurrence) (key : List Char) (indent : Nat) :
    (offset : Nat) → List (List Char) → Option Occurrence
  | _, [] => none
  | offset, line :: rest =>
    (parentIn inner key indent offset line rest).or
      (findParent inner key indent (offset + line.length) rest)

/-- Looks for a path in lines that begin at an offset. -/
def findLines (leaf : List Char) :
    List (List Char) → (offset : Nat) → List (List Char) → Option Occurrence
  | [], offset, ls => (firstIndent? ls).bind fun indent => findLeaf leaf indent offset ls
  | key :: keys, offset, ls =>
    (firstIndent? ls).bind fun indent => findParent (findLines leaf keys) key indent offset ls

/-! ### Attempts at the beginnings of lines -/

/-- Looking for a value at a place. -/
def leafAttempt (leaf : List Char) (indent : Nat) (cursor : Cursor) : Attempt Occurrence :=
  if !cursor.atLineStart then .pass 0
  else match leaf? leaf cursor.rest with
    | none => .pass 0
    | some (reading, slot) =>
      if reading.indent = indent then .found (slot.occurrence cursor.offset)
      else .pass (pastLine cursor.rest reading.keyStop - 1)

/-- Looking for a block at a place, and for the rest of the path in it. -/
def parentAttempt (text leaf key : List Char) (keys : List (List Char)) (indent : Nat) (cursor : Cursor) :
    Attempt Occurrence :=
  if !cursor.atLineStart then .pass 0
  else match parent? key cursor.rest with
    | none => .pass 0
    | some reading =>
      let past := pastLine cursor.rest reading.keyStop
      let inside := do
        guard (reading.indent = indent)
        let block ← Block.child? indent (cursor.rest.drop past)
        let start := cursor.offset + past
        findIn text leaf keys ⟨start, start + block.length⟩
      match inside with
      | some occurrence => .found occurrence
      | none => .pass (past - 1)

theorem findIn_nil_eq (text leaf : List Char) (scope : Span) :
    findIn text leaf [] scope = (Block.indent? (scope.slice text)).bind fun indent =>
      search (leafAttempt leaf indent) (text.take scope.stop) scope.start := rfl

theorem findIn_cons_eq (text leaf key : List Char) (keys : List (List Char)) (scope : Span) :
    findIn text leaf (key :: keys) scope = (Block.indent? (scope.slice text)).bind fun indent =>
      search (parentAttempt text leaf key keys indent) (text.take scope.stop) scope.start := rfl

/-- A reading ends on its line. -/
theorem pastLine_of_mem {key line more : List Char} (hkey : '\n' ∉ key) (hline : Line line more) {r : Reading}
    (hr : r ∈ readings key (line ++ more)) : pastLine (line ++ more) r.keyStop = line.length := by
  obtain ⟨hspelled, heq, hstop⟩ := mem_readings hr
  have hlead := not_mem_of_spelled hkey hspelled
  obtain ⟨tail, htail, -⟩ := exists_rest_of_line hline hlead heq
  exact pastLine_eq hline hlead htail hstop

theorem leafAttempt_pass {leaf : List Char} {indent : Nat} (cursor : Cursor)
    (h : cursor.atLineStart = false) : leafAttempt leaf indent cursor = .pass 0 := by
  simp [leafAttempt, h]

theorem parentAttempt_pass {text leaf key : List Char} {keys : List (List Char)} {indent : Nat}
    (cursor : Cursor) (h : cursor.atLineStart = false) :
    parentAttempt text leaf key keys indent cursor = .pass 0 := by
  simp [parentAttempt, h]

section Line
variable {line more : List Char} (hline : Line line more) {offset indent : Nat} {last : Option Char}
  (hlast : Cursor.atLineStart ⟨offset, last, line ++ more⟩ = true)
include hline hlast

theorem leafAttempt_answer? {leaf : List Char} (hleaf : '\n' ∉ leaf) :
    (leafAttempt leaf indent ⟨offset, last, line ++ more⟩).answer? = leafIn leaf indent offset line := by
  rw [leafIn, ← leafOf?_append hleaf hline, leafOf?]
  simp only [leafAttempt, hlast, Bool.not_true, Bool.false_eq_true, if_false]
  cases leaf? leaf (line ++ more) with
  | none => rfl
  | some found =>
    simp only [Option.map_some, Option.bind_some]
    split <;> rfl

theorem leafAttempt_skip {leaf : List Char} (hleaf : '\n' ∉ leaf) {skip : Nat}
    (h : leafAttempt leaf indent ⟨offset, last, line ++ more⟩ = .pass skip) :
    skip = 0 ∨ skip = line.length - 1 := by
  simp only [leafAttempt, hlast, Bool.not_true, Bool.false_eq_true, if_false] at h
  split at h
  · cases h
    exact .inl rfl
  · rename_i reading slot hfound
    split at h
    · cases h
    · cases h
      right
      obtain ⟨r, hr, heq⟩ := List.exists_of_findSome?_eq_some hfound
      obtain ⟨slot', -, heq⟩ := Option.map_eq_some_iff.mp heq
      cases heq
      rw [pastLine_of_mem hleaf hline hr]

theorem parentAttempt_eq {text leaf key : List Char} {keys : List (List Char)} (hkey : '\n' ∉ key) :
    parentAttempt text leaf key keys indent ⟨offset, last, line ++ more⟩ =
      if parentOf? key line = none then .pass 0
      else match (if parentOf? key line = some indent then (Block.child? indent more).bind fun block =>
          findIn text leaf keys ⟨offset + line.length, offset + line.length + block.length⟩ else none) with
        | some occurrence => .found occurrence
        | none => .pass (line.length - 1) := by
  rw [← parentOf?_append hkey hline, parentOf?]
  simp only [parentAttempt, hlast, Bool.not_true, Bool.false_eq_true, if_false]
  cases hfound : parent? key (line ++ more) with
  | none => rfl
  | some reading =>
    have hr : reading ∈ readings key (line ++ more) := List.mem_of_find?_eq_some hfound
    simp only [pastLine_of_mem hkey hline hr, List.drop_left, Option.map_some, Option.some.injEq,
      reduceCtorEq, if_false]
    by_cases hindent : reading.indent = indent <;> simp [hindent, guard]

end Line

/-! ### The end of the text -/

theorem frontOf?_nil (key : List Char) : frontOf? key [] = none := by
  rw [frontOf?_eq_none_iff]
  rintro lead rest indent ⟨-, -, -, -⟩ heq
  simp at heq

theorem leaf?_nil (leaf : List Char) : leaf? leaf [] = none := by
  have h := leaf?_eq leaf []
  rw [frontOf?_nil] at h
  exact Option.map_eq_none_iff.mp h

theorem leafAttempt_nil {leaf : List Char} {indent offset : Nat} {last : Option Char} :
    (leafAttempt leaf indent ⟨offset, last, []⟩).answer? = none := by
  simp only [leafAttempt, leaf?_nil]
  split <;> rfl

theorem parent?_nil (key : List Char) : parent? key [] = none := by
  have h := parent?_eq key []
  rw [frontOf?_nil] at h
  exact Option.map_eq_none_iff.mp h

theorem parentAttempt_nil {text leaf key : List Char} {keys : List (List Char)} {indent offset : Nat}
    {last : Option Char} : (parentAttempt text leaf key keys indent ⟨offset, last, []⟩).answer? = none := by
  simp only [parentAttempt, parent?_nil]
  split <;> rfl

theorem searchFrom_nil {α : Type} {attempt : Cursor → Attempt α} {offset : Nat} {last : Option Char}
    (h : (attempt ⟨offset, last, []⟩).answer? = none) : searchFrom attempt 0 offset last [] = none := by
  rw [searchFrom, if_pos rfl]
  cases hat : attempt ⟨offset, last, []⟩ with
  | found answer => rw [hat] at h; cases h
  | pass skip => rfl

/-- Whatever is found is a value for the last key, whether or not keys hold line feeds. -/
theorem leaf_of_findIn {text leaf : List Char} {keys : List (List Char)} {scope : Span} {found : Occurrence}
    (h : findIn text leaf keys scope = some found) :
    ∃ n stop indent slot, leafOf? leaf ((text.take stop).drop n) = some (indent, slot) ∧ found = slot.occurrence n := by
  induction keys generalizing scope with
  | nil =>
    rw [findIn_nil_eq] at h
    obtain ⟨indent, -, h⟩ := Option.bind_eq_some_iff.mp h
    obtain ⟨n, -, hfound⟩ := exists_of_search h
    unfold leafAttempt at hfound
    split at hfound
    · cases hfound
    · split at hfound
      · cases hfound
      · rename_i reading slot hleaf
        split at hfound
        · cases hfound
          exact ⟨n, scope.stop, reading.indent, slot, congrArg (Option.map _) hleaf, rfl⟩
        · cases hfound
  | cons key keys ih =>
    rw [findIn_cons_eq] at h
    obtain ⟨indent, -, h⟩ := Option.bind_eq_some_iff.mp h
    obtain ⟨n, -, hfound⟩ := exists_of_search h
    unfold parentAttempt at hfound
    split at hfound
    · cases hfound
    · split at hfound
      · cases hfound
      · simp only at hfound
        split at hfound
        · rename_i hinside
          cases hfound
          obtain ⟨-, -, hinside⟩ := Option.bind_eq_some_iff.mp hinside
          obtain ⟨block, -, hinside⟩ := Option.bind_eq_some_iff.mp hinside
          exact ih hinside
        · cases hfound

/-! ### Place by place is line by line -/

theorem Line.getLast?_of_more {line more : List Char} (h : Line line more) (hne : more ≠ []) :
    line.getLast? = some '\n' := by
  cases h with
  | ended hbody more => simp
  | last hne' hbody => exact absurd rfl hne

/-- A block is a run of lines at the front. -/
theorem exists_of_childLines? {indent : Nat} {ls block : List (List Char)}
    (h : Block.childLines? indent ls = some block) : (∃ others, ls = block ++ others) ∧ block ≠ [] := by
  rcases Block.childLines?_cases indent ls with ⟨hnone, -⟩ | ⟨deeper, own, -, hindent, hlongest, hown⟩
  · rw [h] at hnone
    cases hnone
  · obtain rfl := Option.some.inj (h.symm.trans hown)
    obtain ⟨others, hls⟩ := hlongest.front
    obtain ⟨front, line, rest, hblock, -, -⟩ := hlongest.indentedBy hindent
    exact ⟨⟨others, hls.symm⟩, by simp [hblock]⟩

/-- A search through lines, for an attempt that is known at the beginning of each. -/
theorem searchFrom_lines {attempt : Cursor → Attempt Occurrence}
    (answer : Nat → List Char → List (List Char) → Option Occurrence)
    {loop : Nat → List (List Char) → Option Occurrence}
    (hnil : ∀ offset, loop offset [] = none)
    (hcons : ∀ offset line rest, loop offset (line :: rest) =
      (answer offset line rest).or (loop (offset + line.length) rest))
    (hend : ∀ offset last, (attempt ⟨offset, last, []⟩).answer? = none)
    (hpass : ∀ cursor, cursor.atLineStart = false → attempt cursor = .pass 0)
    {front : List Char} {ls : List (List Char)} (hls : Lines ls)
    (hat : ∀ front' line rest, Line line rest.flatten → Lines rest →
      front ++ ls.flatten = front' ++ line ++ rest.flatten → ∀ last,
      Cursor.atLineStart ⟨front'.length, last, line ++ rest.flatten⟩ = true →
      (attempt ⟨front'.length, last, line ++ rest.flatten⟩).answer? = answer front'.length line rest ∧
      ∀ skip, attempt ⟨front'.length, last, line ++ rest.flatten⟩ = .pass skip →
        skip = 0 ∨ skip = line.length - 1)
    {last : Option Char} (hlast : last = none ∨ last = some '\n') :
    searchFrom attempt 0 front.length last ls.flatten = loop front.length ls := by
  induction hls generalizing front last with
  | nil => rw [hnil, List.flatten_nil, searchFrom_nil (hend _ _)]
  | @cons line rest hline hrest ih =>
    have hstart : Cursor.atLineStart ⟨front.length, last, line ++ rest.flatten⟩ = true := by
      rcases hlast with rfl | rfl <;> rfl
    obtain ⟨hanswer, hskip⟩ := hat front line rest hline hrest (by simp) last hstart
    rw [List.flatten_cons, searchFrom_line hline hpass hskip, hanswer, hcons]
    congr 1
    by_cases hne : rest = []
    · subst hne
      rw [hnil, List.flatten_nil, searchFrom_nil (hend _ _)]
    · have hflatten : rest.flatten ≠ [] := by
        obtain ⟨next, others, rfl⟩ := List.exists_cons_of_ne_nil hne
        cases hrest with
        | cons hnext _ => simp [hnext.ne_nil]
      have hnext : searchFrom attempt 0 (front ++ line).length line.getLast? rest.flatten =
          loop (front ++ line).length rest := by
        refine ih ?_ (.inr (Line.getLast?_of_more hline hflatten))
        intro front' line' rest' hline' hrest' heq
        exact hat front' line' rest' hline' hrest' (by rw [← heq]; simp)
      rwa [List.length_append] at hnext

/-- The block under a key is looked through line by line, if every run of whole lines in the text is. -/
theorem child?_findIn {text leaf : List Char} {keys : List (List Char)}
    (hruns : ∀ {front back : List Char} {ls : List (List Char)}, Lines ls → text = front ++ ls.flatten ++ back →
      (front.getLast? = none ∨ front.getLast? = some '\n') →
      findIn text leaf keys ⟨front.length, front.length + ls.flatten.length⟩ = findLines leaf keys front.length ls)
    {front line back : List Char} {rest : List (List Char)} (hline : Line line rest.flatten) (hrest : Lines rest)
    (htext : text = front ++ line ++ rest.flatten ++ back) (indent : Nat) :
    ((Block.child? indent rest.flatten).bind fun block =>
      findIn text leaf keys ⟨front.length + line.length, front.length + line.length + block.length⟩) =
      (Block.childLines? indent rest).bind (findLines leaf keys (front.length + line.length)) := by
  rw [Block.child?, lines_flatten hrest]
  cases hblock : Block.childLines? indent rest with
  | none => rfl
  | some block =>
    obtain ⟨⟨others, rfl⟩, hne⟩ := exists_of_childLines? hblock
    obtain ⟨first, more, rfl⟩ := List.exists_cons_of_ne_nil hne
    have hflatten : (first :: more ++ others).flatten ≠ [] := by
      cases hrest with
      | cons hfirst _ => simp [hfirst.ne_nil]
    have hend : (front ++ line).getLast? = some '\n' := by
      rw [List.getLast?_append, Line.getLast?_of_more hline hflatten]
      rfl
    have hbefore : text = (front ++ line) ++ (first :: more).flatten ++ (others.flatten ++ back) := by
      rw [htext]
      simp
    have hfound := hruns hrest.of_append_left hbefore (.inr hend)
    rw [List.length_append] at hfound
    exact hfound

/-- **The lookup is one by lines**, in any run of whole lines. -/
theorem findIn_eq {text leaf : List Char} {keys : List (List Char)} (hleaf : '\n' ∉ leaf)
    (hkeys : ∀ key ∈ keys, '\n' ∉ key) {front back : List Char} {ls : List (List Char)} (hls : Lines ls)
    (htext : text = front ++ ls.flatten ++ back)
    (hlast : front.getLast? = none ∨ front.getLast? = some '\n') :
    findIn text leaf keys ⟨front.length, front.length + ls.flatten.length⟩ =
      findLines leaf keys front.length ls := by
  have hcut : ∀ {front back : List Char} {ls : List (List Char)}, text = front ++ ls.flatten ++ back →
      text.take (front.length + ls.flatten.length) = front ++ ls.flatten := by
    rintro front back ls rfl
    rw [← List.length_append, List.take_left]
  have hsearch : ∀ (attempt : Cursor → Attempt Occurrence) {front back : List Char} {ls : List (List Char)},
      text = front ++ ls.flatten ++ back →
      search attempt (text.take (front.length + ls.flatten.length)) front.length =
        searchFrom attempt 0 front.length front.getLast? ls.flatten := by
    intro attempt front back ls h
    rw [hcut h, search, Cursor.at, List.take_left, List.drop_left]
  have hindent : ∀ {front back : List Char} {ls : List (List Char)}, Lines ls →
      text = front ++ ls.flatten ++ back →
      Block.indent? (Span.slice ⟨front.length, front.length + ls.flatten.length⟩ text) = firstIndent? ls := by
    intro front back ls hls h
    rw [Span.slice, hcut h, List.drop_left, Block.indent?, lines_flatten hls]
    rfl
  induction keys generalizing front back ls with
  | nil =>
    rw [findIn_nil_eq, hindent hls htext, findLines]
    refine congrArg _ (funext fun indent => ?_)
    rw [hsearch _ htext]
    refine searchFrom_lines (fun offset line _ => leafIn leaf indent offset line) (fun _ => rfl)
      (fun _ _ _ => rfl) (fun _ _ => leafAttempt_nil) leafAttempt_pass hls ?_ hlast
    intro front' line rest hline _ _ last hstart
    exact ⟨leafAttempt_answer? hline hstart hleaf, fun skip h => leafAttempt_skip hline hstart hleaf h⟩
  | cons key keys ih =>
    have hkey : '\n' ∉ key := hkeys key List.mem_cons_self
    have hkeys' : ∀ key ∈ keys, '\n' ∉ key := fun key h => hkeys key (List.mem_cons_of_mem _ h)
    rw [findIn_cons_eq, hindent hls htext, findLines]
    refine congrArg _ (funext fun indent => ?_)
    rw [hsearch _ htext]
    refine searchFrom_lines (parentIn (findLines leaf keys) key indent) (fun _ => rfl)
      (fun _ _ _ => rfl) (fun _ _ => parentAttempt_nil) parentAttempt_pass hls ?_ hlast
    intro front' line rest hline hrest heq last hstart
    rw [parentAttempt_eq hline hstart hkey]
    have htext' : text = front' ++ line ++ rest.flatten ++ back := by rw [htext, heq]
    rw [child?_findIn (ih hkeys') hline hrest htext' indent, parentIn]
    constructor
    · split
      · rename_i hnone
        rw [hnone]
        rfl
      · split <;> rename_i h <;> rw [h] <;> rfl
    · intro skip h
      split at h
      · cases h
        exact .inl rfl
      · split at h <;> cases h
        exact .inr rfl

/-- **A path is looked for line by line**, if no key holds a line feed. -/
theorem find?_eq_findLines {text : List Char} {path : KeyPath} (h : ∀ key ∈ path.segments, '\n' ∉ key.toList) :
    find? text path = findLines path.leaf.toList (path.parents.map String.toList) 0 (lines text) := by
  obtain ⟨hleaf, hparents⟩ := KeyPath.forall_toList (P := fun name => '\n' ∉ name) h
  have htext : text = [] ++ (lines text).flatten ++ [] := by simp [flatten_lines]
  have hfound := findIn_eq hleaf hparents (lines_lines text) htext (.inl rfl)
  rw [flatten_lines, List.length_nil, Nat.zero_add] at hfound
  exact hfound

end ManifestBump.Yaml

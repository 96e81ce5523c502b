import ManifestBump.Proofs.Text.Rounds
import ManifestBump.Proofs.Yaml.Lookup

/-! Lookups in YAML texts, in bytes, that note what they do.

A lookup looks through runs of whole lines. Behind a key that is passed over the search goes on behind the key's line,
which is further on because the colon stands on that line. The block of a key begins there and ends with the lines of
the run it was looked for in, or in front. Hence every search of a lookup, in whatever block, comes to an end with all
it notes in order (`answers_notedIn`). -/
namespace ManifestBump.Yaml
open Text

/-! ### The ends of lines -/

theorem pastLine_eq_add (text : List Char) (n : Nat) : pastLine text n = n + pastLine (text.drop n) 0 := by
  simp only [pastLine, List.drop_zero, Nat.zero_add, Nat.add_assoc]

/-- Up to the end of its line, a text has its characters without line feeds, and a line feed if there is one. -/
theorem take_pastLine (text : List Char) :
    pastLine text 0 ≤ text.length ∧
      text.take (pastLine text 0) = text.takeWhile (· != '\n') ++ if text.contains '\n' then ['\n'] else [] := by
  obtain ⟨front, rest, rfl, hfront, hstop⟩ := exists_cut (· != '\n') text
  have hnone : '\n' ∉ front := fun hmem => by simpa using hfront _ hmem
  simp only [pastLine, List.drop_zero, Nat.zero_add, takeWhile_append hfront hstop]
  cases rest with
  | nil => simp [hnone]
  | cons c rest =>
    obtain rfl : c = '\n' := by simpa using stops_cons_iff.mp hstop
    simp [List.take_append]

theorem pastLine_pos {text : List Char} (hne : text ≠ []) (n : Nat) : 0 < pastLine text n := by
  rw [pastLine_eq_add]
  cases n with
  | succ n => omega
  | zero =>
    obtain ⟨c, rest, rfl⟩ := List.exists_cons_of_ne_nil hne
    obtain ⟨-, htake⟩ := take_pastLine (c :: rest)
    by_contra hzero
    rw [List.drop_zero] at hzero
    rw [show pastLine (c :: rest) 0 = 0 by omega, List.take_zero, List.nil_eq_append_iff] at htake
    obtain ⟨hline, hfeed⟩ := htake
    by_cases hc : c = '\n'
    · simp [hc] at hfeed
    · simp [hc] at hline

/-- Just behind the line on which a byte offset is. -/
def pastLine? (text : List Char) (n : Nat) : Option Nat := do
  let (_, rest) ← cut? text n
  return n + byteSize (rest.takeWhile (· != '\n')) + if rest.contains '\n' then 1 else 0

theorem pastLine?_byteOffset {text : List Char} (n k : Nat) :
    pastLine? text (byteOffset text n + byteSize ((text.drop n).take k)) =
      some (byteOffset text (n + pastLine (text.drop n) k)) := by
  obtain ⟨-, htake⟩ := take_pastLine (text.drop (n + k))
  rw [← byteOffset_add, pastLine?, cut?_byteOffset, pastLine_eq_add, List.drop_drop, ← Nat.add_assoc,
    byteOffset_add text (n + k), htake, byteSize_append]
  simp only [Option.bind_eq_bind, Option.bind_some, Option.pure_def, Nat.add_assoc]
  split <;> rfl

/-! ### Lookups -/

/-- A value at the indentation of the run is what is looked for, or the search goes on behind the key's line. -/
def judgeLeaf (haystack : List Char) (indent : Nat) (cursor : Cursor) (seen : Reading × Slot) : Noting Round := do
  let start ← pastLine? haystack (cursor.offset + byteSize (cursor.rest.take seen.1.keyStop))
  if seen.1.indent = indent then return .found (seen.2.placed cursor.offset) else return .again start

/-- In the block of a key at the indentation of the run the rest of the path is looked for. Blocks end at the byte
offset `stop`. -/
def judgeParent (inner : Span → Noting (Option Occurrence)) (text : List Char) (stop : Nat) (haystack : List Char)
    (indent : Nat) (cursor : Cursor) (reading : Reading) : Noting Round := do
  let start ← pastLine? haystack (cursor.offset + byteSize (cursor.rest.take reading.keyStop))
  if reading.indent = indent then
    let lines ← Span.read? ⟨start, stop⟩ text
    match Block.child? indent lines with
    | none => return .again start
    | some block =>
      match ← inner ⟨start, start + byteSize block⟩ with
      | some place => return .found place
      | none => return .again start
  else return .again start

/-- What is looked for stands at the front of a line. -/
def atLine {γ : Type} (look : List Char → Option γ) (cursor : Cursor) : Option γ :=
  if cursor.atLineStart then look cursor.rest else none

/-- Looks for a path inside a run of whole lines that lies inside of another one, both in bytes. -/
def notedIn (text leaf : List Char) : List (List Char) → (outer scope : Span) → Noting (Option Occurrence)
  | [], outer, scope => do
    note (.entered outer scope)
    let lines ← scope.read? text
    match Block.indent? lines with
    | none => return none
    | some indent =>
      let haystack ← Span.read? ⟨0, scope.stop⟩ text
      rounds (atLine (leaf? leaf)) (judgeLeaf haystack indent) haystack scope.start
  | key :: keys, outer, scope => do
    note (.entered outer scope)
    let lines ← scope.read? text
    match Block.indent? lines with
    | none => return none
    | some indent =>
      let haystack ← Span.read? ⟨0, scope.stop⟩ text
      rounds (atLine (parent? key))
        (judgeParent (fun block => notedIn text leaf keys scope block) text scope.stop haystack indent) haystack
        scope.start

/-- Looks for a path in a text. -/
def noted (text : List Char) (path : KeyPath) : Noting (Option Occurrence) :=
  let all : Span := ⟨0, byteSize text⟩
  notedIn text path.leaf.toList (path.parents.map String.toList) all all

/-! ### Behind a key -/

/-- Behind the line of a key that is read at a place, the text goes on or ends. -/
theorem pastLine_of_reading {key text : List Char} {n : Nat} {r : Reading} (h : r ∈ readings key (text.drop n)) :
    n + 1 + (pastLine (text.drop n) r.keyStop - 1) = n + pastLine (text.drop n) r.keyStop ∧
      n + pastLine (text.drop n) r.keyStop ≤ text.length := by
  obtain ⟨hspelled, hline, hstop⟩ := mem_readings h
  obtain ⟨front, hlead, -⟩ := hspelled.exists_colon
  have hne : text.drop n ≠ [] := by
    rw [hline, hlead]
    simp
  have hpos := pastLine_pos hne r.keyStop
  have hlen := congrArg List.length hline
  have hn := List.length_pos_iff.mpr hne
  obtain ⟨hle, -⟩ := take_pastLine ((text.drop n).drop r.keyStop)
  rw [pastLine_eq_add] at hpos ⊢
  simp only [List.length_drop, List.length_append] at hlen hle hn
  omega

/-- A block stands in front of its text. -/
theorem exists_of_child? {indent : Nat} {text block : List Char} (h : Block.child? indent text = some block) :
    ∃ rest, text = block ++ rest := by
  obtain ⟨ls, hls, rfl⟩ := Option.map_eq_some_iff.mp h
  obtain ⟨⟨others, hlines⟩, -⟩ := exists_of_childLines? hls
  exact ⟨others.flatten, by rw [← List.flatten_append, ← hlines, flatten_lines]⟩

/-! ### What a value takes -/

theorem lineEnd?_text {text trail : List Char} (h : lineEnd? text = some trail) : trail <+: text := by
  unfold lineEnd? at h
  split at h
  · cases h; exact List.nil_prefix
  · cases h; exact List.nil_prefix
  · cases h; exact List.prefix_rfl
  · cases h; exact ⟨_, rfl⟩
  · cases h

/-- Blanks and a comment stand at the front of their text. -/
theorem trail?_text {text trail : List Char} (h : trail? text = some trail) : trail <+: text := by
  obtain ⟨blanks, rest, rfl, hblanks, hrest⟩ := exists_cut isIndent text
  simp only [trail?, takeWhile_append hblanks hrest, dropWhile_append hblanks hrest] at h
  split at h
  · split at h
    · cases h
    · obtain ⟨behind, hbehind, rfl⟩ := Option.map_eq_some_iff.mp h
      obtain ⟨more, hmore⟩ := lineEnd?_text hbehind
      rw [List.append_assoc, List.prefix_append_right_inj]
      exact ⟨more, by rw [List.append_assoc, hmore, List.takeWhile_append_dropWhile]⟩
  · obtain ⟨behind, hbehind, rfl⟩ := Option.map_eq_some_iff.mp h
    exact (List.prefix_append_right_inj _).mpr (lineEnd?_text hbehind)

theorem Scalar.whole {text : List Char} {slot : Slot} (h : Scalar text slot) : slot.whole <+: text := by
  cases h with
  | @quoted quote value rest trail hquote hvalue htrail =>
    obtain ⟨more, hmore⟩ := trail?_text htrail
    exact ⟨more, by simp [Slot.whole, ← hmore]⟩
  | @bare c value rest trail hquote hblank hhash htrail =>
    obtain ⟨more, hmore⟩ := trail?_text htrail
    exact ⟨more, by simp [Slot.whole, ← hmore]⟩

/-- **A key with its value and what closes it stands at the front of its line.** -/
theorem leaf?_whole {key line : List Char} {reading : Reading} {slot : Slot}
    (h : leaf? key line = some (reading, slot)) : slot.whole <+: line := by
  obtain ⟨lead, rest, inner, hfront, hinner, rfl⟩ := leafOf?_eq_some_iff.mp
    (show leafOf? key line = some (reading.indent, slot) by rw [leafOf?, h]; rfl)
  obtain ⟨blanks, tail, scalar, rfl, -, -, -, hscalar, rfl⟩ := value?_eq_some_iff.mp hinner
  obtain ⟨more, hmore⟩ := (scalar?_cases hscalar).whole
  obtain ⟨rfl, -, -⟩ := frontOf?_eq_some_iff.mp hfront
  exact ⟨more, by rw [← hmore]; simp [Slot.whole, Slot.behind]⟩

/-! ### The outcome of a lookup -/

theorem atLine_eq_some_iff {γ : Type} {look : List Char → Option γ} {cursor : Cursor} {seen : γ} :
    atLine look cursor = some seen ↔ cursor.atLineStart = true ∧ look cursor.rest = some seen := by
  rw [atLine]
  split <;> simp_all

theorem atLine_eq_none_iff {γ : Type} {look : List Char → Option γ} {cursor : Cursor} :
    atLine look cursor = none ↔ (cursor.atLineStart = true → look cursor.rest = none) := by
  rw [atLine]
  split <;> simp_all

section Judges
variable {text leaf key : List Char} {keys : List (List Char)} {indent stop n : Nat}

theorem leafAttempt_of_missed (cursor : Cursor) (h : atLine (leaf? leaf) cursor = none) :
    leafAttempt leaf indent cursor = .pass 0 := by
  rw [atLine_eq_none_iff] at h
  unfold leafAttempt
  cases hline : cursor.atLineStart with
  | false => rfl
  | true => simp only [h hline, Bool.not_true, Bool.false_eq_true, if_false]

theorem parentAttempt_of_missed (cursor : Cursor) (h : atLine (parent? key) cursor = none) :
    parentAttempt text leaf key keys indent cursor = .pass 0 := by
  rw [atLine_eq_none_iff] at h
  unfold parentAttempt
  cases hline : cursor.atLineStart with
  | false => rfl
  | true => simp only [h hline, Bool.not_true, Bool.false_eq_true, if_false]

theorem leafAttempt_of_seen (indent : Nat) (cursor : Cursor) {reading : Reading} {slot : Slot}
    (h : atLine (leaf? leaf) cursor = some (reading, slot)) :
    leafAttempt leaf indent cursor =
      if reading.indent = indent then .found (slot.occurrence cursor.offset)
      else .pass (pastLine cursor.rest reading.keyStop - 1) := by
  obtain ⟨hline, hleaf⟩ := atLine_eq_some_iff.mp h
  simp only [leafAttempt, hline, hleaf, Bool.not_true, Bool.false_eq_true, if_false]

theorem parentAttempt_of_seen (text leaf : List Char) (keys : List (List Char)) (indent : Nat) (cursor : Cursor)
    {reading : Reading} (h : atLine (parent? key) cursor = some reading) :
    parentAttempt text leaf key keys indent cursor =
      let past := pastLine cursor.rest reading.keyStop
      (if reading.indent = indent then
        (Block.child? indent (cursor.rest.drop past)).bind fun block =>
          findIn text leaf keys ⟨cursor.offset + past, cursor.offset + past + block.length⟩
      else none).elim (.pass (past - 1)) .found := by
  obtain ⟨hline, hparent⟩ := atLine_eq_some_iff.mp h
  simp only [parentAttempt, hline, hparent, Bool.not_true, Bool.false_eq_true, if_false, guard]
  by_cases hindent : reading.indent = indent
  · simp only [hindent, if_true, Option.bind_eq_bind, Option.pure_def, Option.bind_some]
    cases Block.child? indent (cursor.rest.drop (pastLine cursor.rest reading.keyStop)) with
    | none => rfl
    | some block =>
      simp only [Option.bind_some]
      split <;> simp_all
  · simp only [hindent, if_false]
    rfl

/-- Behind the line of a key the search goes on. -/
theorem agrees_behind (text : List Char) {r : Reading} (h : r ∈ readings key ((text.take stop).drop n)) :
    Agrees text (text.take stop) n (.pass (pastLine ((text.take stop).drop n) r.keyStop - 1))
      (.again (byteOffset (text.take stop) (n + pastLine ((text.take stop).drop n) r.keyStop))) := by
  obtain ⟨hskip, hle⟩ := pastLine_of_reading h
  rw [← hskip] at hle ⊢
  exact .again hle

/-- Values are judged as attempts judge them. -/
theorem judges_leaf (text leaf : List Char) (indent stop low : Nat) :
    Judges text (text.take stop) low (leafAttempt leaf indent) (atLine (leaf? leaf))
      (judgeLeaf (text.take stop) indent) where
  atEnd cursor hrest := atLine_eq_none_iff.mpr fun _ => by rw [hrest, leaf?_nil]
  missed n hmissed := leafAttempt_of_missed (Cursor.at (text.take stop) n) hmissed
  seen n seen _ hseen := by
    obtain ⟨reading, slot⟩ := seen
    obtain ⟨-, hleaf⟩ := atLine_eq_some_iff.mp hseen
    have hleaf : leaf? leaf ((text.take stop).drop n) = some (reading, slot) := hleaf
    obtain ⟨r, hr, heq⟩ := List.exists_of_findSome?_eq_some hleaf
    obtain ⟨_, -, heq⟩ := Option.map_eq_some_iff.mp heq
    cases heq
    have hn : n ≤ stop := by
      have := (pastLine_of_reading hr).2
      have := List.length_take_le stop text
      omega
    have hpast := @pastLine?_byteOffset (text.take stop) n reading.keyStop
    have hattempt := leafAttempt_of_seen indent (Cursor.at (text.take stop) n) hseen
    rw [hattempt]
    by_cases hindent : reading.indent = indent
    · have hplaced : slot.placed (byteOffset (text.take stop) n) = (slot.occurrence n).inBytes text := by
        rw [byteOffset_take hn, Slot.placed_eq (leaf?_whole hleaf)]
      rw [if_pos hindent]
      refine ⟨.found (slot.placed (byteOffset (text.take stop) n)), (ComesTo.lift hpast).bind ?_, ?_⟩
      · rw [if_pos hindent]
        exact .pure _
      · rw [hplaced]
        exact .found (slot.sound_occurrence text n)
    · rw [if_neg hindent]
      refine ⟨_, (ComesTo.lift hpast).bind ?_, agrees_behind text hr⟩
      rw [if_neg hindent]
      exact .pure _

/-- The block of a key lies inside of the run the key was found in. -/
theorem nested_block {outer scope : Span} (h : Nested text outer scope) (hlow : scope.start ≤ n) {past : Nat}
    (hpast : n + past ≤ scope.stop) {block : List Char}
    (hblock : Block.child? indent (((text.take scope.stop).drop n).drop past) = some block) :
    Nested text scope ⟨n + past, n + past + block.length⟩ ∧
      byteOffset text (n + past) + byteSize block = byteOffset text (n + past + block.length) := by
  obtain ⟨rest, hrest⟩ := exists_of_child? hblock
  have hlen := congrArg List.length hrest
  simp only [List.length_drop, List.length_take_of_le h.stop_le_length, List.length_append] at hlen
  rw [List.drop_drop] at hrest
  exact ⟨{
    start_le := by simp only; omega
    ordered := Nat.le_add_right _ _
    stop_le := by simp only; omega
    inside := h.stop_le_length }, (byteOffset_add_length hrest).symm⟩

/-- What is left of a run behind a line can be read in bytes. -/
theorem read?_behind (text : List Char) {past : Nat} (h : n + past ≤ stop) :
    Span.read? ⟨byteOffset (text.take stop) (n + past), byteOffset text stop⟩ text =
      some (((text.take stop).drop n).drop past) := by
  rw [byteOffset_take h, List.drop_drop]
  exact Span.read?_inBytes (s := ⟨n + past, stop⟩) h

/-- How a key with a block is judged: by what the lookup in the block comes to. -/
theorem comesTo_of_block {inner : Span → Noting (Option Occurrence)} {P : Note → Prop} {reading : Reading} {past : Nat}
    {block : List Char} {found : Option Occurrence} {round : Round}
    (hpast : pastLine? (text.take stop) (byteOffset (text.take stop) n +
        byteSize (((text.take stop).drop n).take reading.keyStop)) = some (byteOffset (text.take stop) (n + past)))
    (hle : n + past ≤ stop) (hindent : reading.indent = indent)
    (hblock : Block.child? indent (((text.take stop).drop n).drop past) = some block)
    (hinner : ComesTo P (inner ⟨byteOffset text (n + past), byteOffset text (n + past) + byteSize block⟩) found)
    (hround : ComesTo P (match found with
      | some place => pure (.found place)
      | none => pure (.again (byteOffset (text.take stop) (n + past)))) round) :
    ComesTo P (judgeParent inner text (byteOffset text stop) (text.take stop) indent
      ((Cursor.at (text.take stop) n).inBytes (text.take stop)) reading) round := by
  have hread := read?_behind text hle
  rw [← byteOffset_take hle] at hinner
  refine (ComesTo.lift hpast).bind ?_
  rw [if_pos hindent]
  refine (ComesTo.lift hread).bind ?_
  rw [hblock]
  exact hinner.bind hround

/-- Keys with blocks are judged as attempts judge them, if the lookups in the blocks are in order. -/
theorem judges_parent {outer scope : Span} {inner : Span → Noting (Option Occurrence)} (h : Nested text outer scope)
    (hinner : ∀ block, Nested text scope block →
      Answers text (inner (block.inBytes text)) (findIn text leaf keys block)) :
    Judges text (text.take scope.stop) scope.start (parentAttempt text leaf key keys indent) (atLine (parent? key))
      (judgeParent inner text (byteOffset text scope.stop) (text.take scope.stop) indent) where
  atEnd cursor hrest := atLine_eq_none_iff.mpr fun _ => by rw [hrest, parent?_nil]
  missed n hmissed := parentAttempt_of_missed (Cursor.at (text.take scope.stop) n) hmissed
  seen n reading hlow hseen := by
    obtain ⟨-, hparent⟩ := atLine_eq_some_iff.mp hseen
    have hreading : reading ∈ readings key ((text.take scope.stop).drop n) := List.mem_of_find?_eq_some hparent
    have hpast := @pastLine?_byteOffset (text.take scope.stop) n reading.keyStop
    have hagrees := agrees_behind text hreading
    have hle := (pastLine_of_reading hreading).2
    rw [List.length_take_of_le h.stop_le_length] at hle
    have hattempt := parentAttempt_of_seen text leaf keys indent (Cursor.at (text.take scope.stop) n) hseen
    rw [hattempt]
    simp only [Cursor.at]
    generalize pastLine ((text.take scope.stop).drop n) reading.keyStop = past at hpast hagrees hle ⊢
    by_cases hindent : reading.indent = indent
    · rw [if_pos hindent]
      cases hblock : Block.child? indent (((text.take scope.stop).drop n).drop past) with
      | none =>
        refine ⟨_, (ComesTo.lift hpast).bind ?_, hagrees⟩
        rw [if_pos hindent]
        refine (ComesTo.lift (read?_behind text hle)).bind ?_
        rw [hblock]
        exact .pure _
      | some block =>
        obtain ⟨hnested, hsize⟩ := nested_block h hlow hle hblock
        have hanswers := hinner _ hnested
        rw [Span.inBytes, ← hsize] at hanswers
        rw [Option.bind_some]
        generalize findIn text leaf keys ⟨n + past, n + past + block.length⟩ = answer at hanswers ⊢
        cases answer with
        | none => exact ⟨_, comesTo_of_block hpast hle hindent hblock hanswers.ends (.pure _), hagrees⟩
        | some place =>
          refine ⟨_, comesTo_of_block hpast hle hindent hblock hanswers.ends (.pure _), ?_⟩
          exact .found (hanswers.sound place rfl)
    · rw [if_neg hindent]
      refine ⟨_, (ComesTo.lift hpast).bind ?_, hagrees⟩
      rw [if_neg hindent]
      exact .pure _

end Judges

/-- **Every lookup in a run of lines comes to an end, and to the answer of the lookup in characters.** None of its cuts
fails, and all that it and the lookups in blocks note is in order. -/
theorem answers_notedIn {text leaf : List Char} {keys : List (List Char)} {outer scope : Span}
    (h : Nested text outer scope) :
    Answers text (notedIn text leaf keys (outer.inBytes text) (scope.inBytes text)) (findIn text leaf keys scope) := by
  induction keys generalizing outer scope with
  | nil =>
    rw [findIn_nil_eq]
    refine .after (.note h.sound) (.after (.lift (Span.read?_inBytes h.ordered)) ?_)
    cases Block.indent? (scope.slice text) with
    | none => exact .none text
    | some indent =>
      exact .after (.lift (read?_front text scope.stop))
        (answers_rounds (judges_leaf text leaf indent scope.stop 0) (Nat.zero_le _) h.ordered h.stop_le_length)
  | cons key keys ih =>
    rw [findIn_cons_eq]
    refine .after (.note h.sound) (.after (.lift (Span.read?_inBytes h.ordered)) ?_)
    cases Block.indent? (scope.slice text) with
    | none => exact .none text
    | some indent =>
      exact .after (.lift (read?_front text scope.stop))
        (answers_rounds (judges_parent h fun block hblock => ih hblock) le_rfl h.ordered h.stop_le_length)

/-- **A lookup comes to an end, and to what the lookup in characters finds.** -/
theorem answers_noted (text : List Char) (path : KeyPath) : Answers text (noted text path) (find? text path) := by
  have h : Answers text (notedIn text path.leaf.toList (path.parents.map String.toList) ((Span.all text).inBytes text)
      ((Span.all text).inBytes text)) (find? text path) := answers_notedIn (nested_all text)
  rw [Span.inBytes, Span.all, byteOffset_length] at h
  exact h

end ManifestBump.Yaml

import ManifestBump.Manifest.Block
import ManifestBump.Proofs.Text.Bytes
import ManifestBump.Proofs.Text.Cut
import ManifestBump.Proofs.Text.Lines

/-! The block of lines under a key.

The first line with content tells how deep a run of lines is indented (`IndentedBy`). Behind a key there is a block if
that is deeper than the key, and the block is the longest run of lines at the front in which no line with content is
shallower (`childLines?_of_indentedBy`, `longest_takeWhile`). Going through the lines one by one, in bytes, and learning
the indentation on the way comes to the same end (`blockStop?_eq`), so the block of a range of whole lines in a text is
a range of whole lines (`childSpan?_cases`). -/
namespace ManifestBump
open Text

/-! ### Ranges of whole lines -/

namespace Text.Span
variable {text : List Char} {range : Span} {ls : List (List Char)}

/-- From the first of some lines of a text to the last, in bytes. -/
def IsLines (range : Span) (text : List Char) (ls : List (List Char)) : Prop :=
  ∃ front back, lines text = front ++ ls ++ back ∧ range = ⟨byteSize front.flatten, byteSize (front ++ ls).flatten⟩

theorem isLines_all (text : List Char) : IsLines ⟨0, byteSize text⟩ text (lines text) :=
  ⟨[], [], by simp, by simp [flatten_lines]⟩

/-- The lines of a range are found again in what is read. -/
theorem IsLines.lines_flatten (h : range.IsLines text ls) : lines ls.flatten = ls := by
  obtain ⟨front, back, htext, -⟩ := h
  have hlines := lines_lines text
  rw [htext] at hlines
  exact Text.lines_flatten hlines.of_append_left.of_append_right

theorem IsLines.read? (h : range.IsLines text ls) : range.read? text = some ls.flatten := by
  obtain ⟨front, back, htext, rfl⟩ := h
  refine read?_eq_some_iff.mpr ⟨front.flatten, back.flatten, ?_, by rw [List.flatten_append]⟩
  rw [← flatten_lines text, htext, List.flatten_append, List.flatten_append]

/-- The first of the lines are a range as well. -/
theorem IsLines.of_prefix {own : List (List Char)} (h : range.IsLines text ls) (hown : own <+: ls) :
    IsLines ⟨range.start, range.start + byteSize own.flatten⟩ text own := by
  obtain ⟨front, back, htext, rfl⟩ := h
  obtain ⟨others, rfl⟩ := hown
  refine ⟨front, others ++ back, by rw [htext]; simp, ?_⟩
  simp only [List.flatten_append, byteSize_append]

end Text.Span

namespace Block
variable {text line : List Char} {ls own : List (List Char)} {indent : Nat}

/-! ### Lines with content -/

/-- A line with content at an indentation: so many spaces and tabs, other blanks behind them if there are any, and then
a character that is neither blank nor the mark of a comment. -/
inductive ContentAt : (indent : Nat) → (line : List Char) → Prop
  | intro {spaces blanks rest : List Char} {c : Char} (hspaces : ∀ s ∈ spaces, isIndent s = true)
    (hblanks : ∀ b ∈ blanks, isBlank b = true) (hstop : Stops isIndent (blanks ++ c :: rest))
    (hblank : isBlank c = false) (hmark : c ≠ '#') : ContentAt spaces.length (spaces ++ (blanks ++ c :: rest))

theorem contentAt_iff : ContentAt indent line ↔ isContent line = true ∧ indentOf line = indent := by
  have hdrop : ∀ {spaces blanks rest : List Char}, (∀ s ∈ spaces, isIndent s = true) →
      (∀ b ∈ blanks, isBlank b = true) → Stops isBlank rest →
      (spaces ++ (blanks ++ rest)).dropWhile isBlank = rest := by
    intro spaces blanks rest hspaces hblanks hrest
    rw [← List.append_assoc]
    apply dropWhile_append _ hrest
    intro c hc
    rcases List.mem_append.mp hc with hc | hc
    · exact isBlank_of_isIndent (hspaces c hc)
    · exact hblanks c hc
  constructor
  · intro h
    cases h with
    | intro hspaces hblanks hstop hblank hmark =>
      rw [isContent, hdrop hspaces hblanks (stops_cons_iff.mpr hblank), indentOf, takeWhile_append hspaces hstop]
      exact ⟨bne_iff_ne.mpr hmark, rfl⟩
  · rintro ⟨hcontent, rfl⟩
    obtain ⟨spaces, more, rfl, hspaces, hstop⟩ := exists_cut isIndent line
    obtain ⟨blanks, rest, rfl, hblanks, hrest⟩ := exists_cut isBlank more
    rw [isContent, hdrop hspaces hblanks hrest] at hcontent
    rw [indentOf, takeWhile_append hspaces hstop]
    cases rest with
    | nil => cases hcontent
    | cons c rest => exact .intro hspaces hblanks hstop (stops_cons_iff.mp hrest) (bne_iff_ne.mp hcontent)

theorem not_contentAt_iff : (∀ n, ¬ContentAt n line) ↔ isContent line = false := by
  simp [contentAt_iff]

/-- The first line with content has an indentation. -/
def IndentedBy (indent : Nat) (ls : List (List Char)) : Prop :=
  ∃ front line rest, ls = front ++ line :: rest ∧ (∀ plain ∈ front, ∀ n, ¬ContentAt n plain) ∧ ContentAt indent line

theorem indentedBy_iff : IndentedBy indent ls ↔ (ls.find? isContent).map indentOf = some indent := by
  rw [Option.map_eq_some_iff]
  simp only [List.find?_eq_some_iff_append, IndentedBy, not_contentAt_iff]
  constructor
  · intro ⟨front, line, rest, hls, hplain, hline⟩
    obtain ⟨hcontent, hindent⟩ := contentAt_iff.mp hline
    exact ⟨line, ⟨hcontent, front, rest, hls, fun plain h => by simp [hplain plain h]⟩, hindent⟩
  · intro ⟨line, ⟨hcontent, front, rest, hls, hplain⟩, hindent⟩
    exact ⟨front, line, rest, hls, fun plain h => by simpa using hplain plain h, contentAt_iff.mpr ⟨hcontent, hindent⟩⟩

theorem IndentedBy.unique {other : Nat} (h : IndentedBy indent ls) (h' : IndentedBy other ls) : indent = other :=
  Option.some.inj ((indentedBy_iff.mp h).symm.trans (indentedBy_iff.mp h'))

/-- No line with content is indented less. -/
def NoShallower (indent : Nat) (ls : List (List Char)) : Prop := ∀ line ∈ ls, ∀ n, ContentAt n line → indent ≤ n

/-- Whether a line can be in a block with an indentation. -/
def isInside (indent : Nat) (line : List Char) : Bool := !isContent line || indent ≤ indentOf line

theorem noShallower_iff : NoShallower indent ls ↔ ∀ line ∈ ls, isInside indent line = true := by
  apply forall₂_congr
  intro line _
  cases hcontent : isContent line <;> simp [contentAt_iff, isInside, hcontent]

/-! ### Blocks -/

/-- The longest run of lines at the front of others in which no line with content is shallower. -/
structure Longest (indent : Nat) (ls own : List (List Char)) : Prop where
  front : own <+: ls
  deep : NoShallower indent own
  longest : ∀ other, other <+: ls → NoShallower indent other → other <+: own

theorem longest_takeWhile (indent : Nat) (ls : List (List Char)) :
    Longest indent ls (ls.takeWhile (isInside indent)) where
  front := List.takeWhile_prefix _
  deep := noShallower_iff.mpr fun line hline => List.mem_takeWhile_imp hline
  longest other hfront hdeep := by
    obtain ⟨rest, rfl⟩ := hfront
    rw [List.takeWhile_append_of_pos (noShallower_iff.mp hdeep)]
    exact List.prefix_append _ _

/-- The block has the indentation of the lines it was cut from. -/
theorem Longest.indentedBy (h : Longest indent ls own) (hindent : IndentedBy indent ls) : IndentedBy indent own := by
  obtain ⟨front, line, rest, rfl, hplain, hline⟩ := hindent
  have hdeep : NoShallower indent (front ++ [line]) := by
    intro other hother n hn
    rcases List.mem_append.mp hother with hother | hother
    · exact absurd hn (hplain other hother n)
    · obtain rfl := List.mem_singleton.mp hother
      rw [contentAt_iff] at hline hn
      exact (hline.2.symm.trans hn.2).le
  obtain ⟨more, rfl⟩ := h.longest _ ⟨rest, by simp⟩ hdeep
  exact ⟨front, line, more, by simp, hplain, hline⟩

/-- **There is a block if the first line with content is deeper than the parent**, and it goes on as long as no line
with content is shallower than that one. -/
theorem childLines?_of_indentedBy (h : IndentedBy indent ls) (parent : Nat) :
    childLines? parent ls = if parent < indent then some (ls.takeWhile (isInside indent)) else none := by
  obtain ⟨front, line, rest, rfl, hplain, hline⟩ := h
  obtain ⟨hcontent, rfl⟩ := contentAt_iff.mp hline
  induction front with
  | nil =>
    have hinside : isInside (indentOf line) line = true := by simp [isInside]
    rw [List.nil_append, childLines?, if_pos hcontent, List.takeWhile_cons_of_pos hinside]
    rfl
  | cons plain front ih =>
    have hnone := not_contentAt_iff.mp (hplain plain List.mem_cons_self)
    have hinside : isInside (indentOf line) plain = true := by simp [isInside, hnone]
    rw [List.cons_append, childLines?, if_neg (by simp [hnone]),
      ih fun other hother => hplain other (List.mem_cons_of_mem _ hother), List.takeWhile_cons_of_pos hinside]
    split <;> rfl

theorem childLines?_of_plain (h : ∀ n, ¬IndentedBy n ls) (parent : Nat) : childLines? parent ls = none := by
  have hplain : ∀ line ∈ ls, isContent line = false := by
    cases hfind : ls.find? isContent with
    | none => simpa using hfind
    | some line => exact absurd (indentedBy_iff.mpr (by rw [hfind]; rfl)) (h (indentOf line))
  clear h
  induction ls with
  | nil => rfl
  | cons line rest ih =>
    rw [childLines?, if_neg (by simp [hplain line List.mem_cons_self]),
      ih fun other hother => hplain other (List.mem_cons_of_mem _ hother)]
    rfl

/-- There is no block, or it is the longest run of lines that are deep enough. -/
theorem childLines?_cases (parent : Nat) (ls : List (List Char)) :
    (childLines? parent ls = none ∧ ∀ indent, IndentedBy indent ls → indent ≤ parent) ∨
      ∃ indent own, parent < indent ∧ IndentedBy indent ls ∧ Longest indent ls own ∧
        childLines? parent ls = some own := by
  by_cases hplain : ∀ n, ¬IndentedBy n ls
  · exact .inl ⟨childLines?_of_plain hplain parent, fun indent hindent => absurd hindent (hplain indent)⟩
  · obtain ⟨indent, hindent⟩ := not_forall_not.mp hplain
    rw [childLines?_of_indentedBy hindent]
    split
    · rename_i hdeeper
      exact .inr ⟨indent, _, hdeeper, hindent, longest_takeWhile indent ls, rfl⟩
    · rename_i hshallow
      refine .inl ⟨rfl, fun other hother => ?_⟩
      rw [hother.unique hindent]
      exact Nat.le_of_not_lt hshallow

/-! ### Line by line, in bytes -/

/-- Where a block ends that goes on at an offset with these lines. Its indentation is known once a line with content has
been passed. -/
def blockStop? (parent : Nat) : (known : Option Nat) → (offset : Nat) → List (List Char) → Option Nat
  | known, offset, [] => known.map fun _ => offset
  | known, offset, line :: rest =>
    if isContent line then
      match known with
      | none =>
        if parent < indentOf line then blockStop? parent (some (indentOf line)) (offset + byteSize line) rest
        else none
      | some indent =>
        if indentOf line < indent then some offset
        else blockStop? parent (some indent) (offset + byteSize line) rest
    else blockStop? parent known (offset + byteSize line) rest

/-- The block of the lines in a range, as a range. -/
def childSpan? (text : List Char) (range : Span) (parent : Nat) : Option (Option Span) := do
  let inside ← range.read? text
  return (blockStop? parent none range.start (lines inside)).map fun stop => ⟨range.start, stop⟩

/-- With its indentation known, a block goes on as long as no line with content is shallower. -/
theorem blockStop?_known (parent indent offset : Nat) (ls : List (List Char)) :
    blockStop? parent (some indent) offset ls = some (offset + byteSize (ls.takeWhile (isInside indent)).flatten) := by
  induction ls generalizing offset with
  | nil => rfl
  | cons line rest ih =>
    rw [blockStop?]
    by_cases hinside : isInside indent line = true
    · have hnext : blockStop? parent (some indent) (offset + byteSize line) rest =
          some (offset + byteSize ((line :: rest).takeWhile (isInside indent)).flatten) := by
        rw [ih, List.takeWhile_cons_of_pos hinside, List.flatten_cons, byteSize_append, Nat.add_assoc]
      simp only [isInside, Bool.or_eq_true, Bool.not_eq_true', decide_eq_true_eq] at hinside
      rcases hinside with hplain | hdeep
      · rw [if_neg (by simp [hplain]), hnext]
      · simp only [if_neg (Nat.not_lt.mpr hdeep), hnext, ite_self]
    · rw [List.takeWhile_cons_of_neg hinside]
      simp only [isInside, Bool.or_eq_true, Bool.not_eq_true', decide_eq_true_eq, not_or] at hinside
      obtain ⟨hcontent, hshallow⟩ := hinside
      simp only [if_pos (Bool.eq_true_of_not_eq_false hcontent), if_pos (Nat.lt_of_not_le hshallow)]
      rfl

/-- **Line by line the block ends where its lines do.** -/
theorem blockStop?_eq (parent offset : Nat) (ls : List (List Char)) :
    blockStop? parent none offset ls = (childLines? parent ls).map fun own => offset + byteSize own.flatten := by
  induction ls generalizing offset with
  | nil => rfl
  | cons line rest ih =>
    rw [blockStop?, childLines?]
    by_cases hcontent : isContent line = true
    · simp only [if_pos hcontent]
      split
      · rw [blockStop?_known, Option.map_some, List.flatten_cons, byteSize_append, ← Nat.add_assoc]
        rfl
      · rfl
    · simp only [if_neg hcontent, ih, Option.map_map]
      congr 1
      funext own
      simp [Nat.add_assoc]

/-- The block of whole lines in a text is the block at the front of what is read. -/
theorem childSpan?_eq {range : Span} (h : range.IsLines text ls) (parent : Nat) :
    childSpan? text range parent =
      some ((child? parent ls.flatten).map fun block => ⟨range.start, range.start + byteSize block⟩) := by
  simp only [childSpan?, h.read?, Option.bind_eq_bind, Option.bind_some, Option.pure_def, blockStop?_eq, child?,
    h.lines_flatten, Option.map_map]
  rfl

/-- **The block of whole lines in a text are whole lines of it**, if there is a block. -/
theorem childSpan?_cases {range : Span} (h : range.IsLines text ls) (parent : Nat) :
    (childSpan? text range parent = some none ∧ ∀ indent, IndentedBy indent ls → indent ≤ parent) ∨
      ∃ indent own, parent < indent ∧ IndentedBy indent ls ∧ Longest indent ls own ∧
        Span.IsLines ⟨range.start, range.start + byteSize own.flatten⟩ text own ∧
        childSpan? text range parent = some (some ⟨range.start, range.start + byteSize own.flatten⟩) := by
  rw [childSpan?_eq h, child?, h.lines_flatten]
  rcases childLines?_cases parent ls with ⟨hnone, hall⟩ | ⟨indent, own, hdeeper, hindent, hlongest, hsome⟩
  · rw [hnone]
    exact .inl ⟨rfl, hall⟩
  · rw [hsome]
    exact .inr ⟨indent, own, hdeeper, hindent, hlongest, h.of_prefix hlongest.front, rfl⟩

/-- Blank lines and comments belong to the block, wherever they begin, and a shallower line ends it. -/
example : childSpan? "a:\n\n  b: 1\r\n# x\n\t\t\tc: 2\n d".toList ⟨3, 26⟩ 0 = some (some ⟨3, 24⟩) := by
  decide +kernel

end Block
end ManifestBump

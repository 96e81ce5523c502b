import ManifestBump.Proofs.Yaml.Block
import ManifestBump.Proofs.Yaml.Rounds

/-! The scopes of a lookup in a YAML text.

Behind the line of a key the text goes on with whole lines (`exists_isLines_behind`). So every scope a lookup goes down
to is the block of the last lines of another scope, at the indentation of that one (`notesOnly_notedIn`), and from what
blocks are it follows how scopes are indented (`childSpan?_longest`). -/
namespace ManifestBump.Yaml
open Text Block

variable {text leaf haystack : List Char} {range outer scope : Span} {ls : List (List Char)} {n start indent : Nat}

/-! ### Behind a line -/

/-- Behind the line of a byte offset another line begins, or the text ends. -/
theorem exists_of_pastLine? (h : pastLine? text n = some start) :
    ∃ front back, text = front ++ back ∧ start = byteSize front ∧ (front.getLast? = some '\n' ∨ back = []) := by
  obtain ⟨⟨before, rest⟩, hcut, hstart⟩ := Option.bind_eq_some_iff.mp h
  obtain ⟨rfl, rfl⟩ := cut?_eq_some_iff.mp hcut
  obtain rfl := Option.some.inj hstart
  obtain ⟨run, more, rfl, hrun, hstop⟩ := exists_cut (· != '\n') rest
  have hnone : '\n' ∉ run := fun hmem => by simpa using hrun _ hmem
  rw [takeWhile_append hrun hstop]
  cases more with
  | nil => exact ⟨before ++ run, [], by simp, by simp [hnone], .inr rfl⟩
  | cons c more =>
    obtain rfl : c = '\n' := by simpa using stops_cons_iff.mp hstop
    have hfeed : '\n'.utf8Size = 1 := by decide
    exact ⟨before ++ run ++ ['\n'], more, by simp, by simp [hfeed, Nat.add_assoc], .inl (by simp)⟩

/-- **Behind a line, a range of whole lines goes on with whole lines.** -/
theorem exists_isLines_behind (h : range.IsLines text ls) (hread : Span.read? ⟨0, range.stop⟩ text = some haystack)
    (hpast : pastLine? haystack n = some start) : ∃ rest, Span.IsLines ⟨start, range.stop⟩ text rest := by
  obtain ⟨front, back, htext, rfl⟩ := h
  have hfront : Span.IsLines ⟨0, byteSize (front ++ ls).flatten⟩ text (front ++ ls) :=
    ⟨[], back, by simpa using htext, by simp⟩
  obtain rfl := Option.some.inj (hfront.read?.symm.trans hread)
  obtain ⟨before, rest, hcut, rfl, hline⟩ := exists_of_pastLine? hpast
  have hlines : front ++ ls = lines before ++ lines rest := by
    rw [← hfront.lines_flatten, hcut]
    rcases hline with hline | rfl
    · exact lines_append_of_ended (.inr hline) rest
    · simp [lines]
  refine ⟨lines rest, lines before, back, by rw [htext, hlines], ?_⟩
  rw [← hlines, flatten_lines]

/-! ### Scopes -/

/-- How a scope lies in the one it was cut from: it is the block of the last lines there. No line in it with content is
shallower than its own indentation, which is deeper. -/
structure CutFrom (text : List Char) (outer scope : Span) (indent deeper : Nat) : Prop where
  above : ∃ outside, outer.IsLines text outside ∧ IndentedBy indent outside
  cut : childSpan? text ⟨scope.start, outer.stop⟩ indent = some (some scope)
  inside : ∃ own, scope.IsLines text own ∧ IndentedBy deeper own ∧ NoShallower deeper own
  lt : indent < deeper

/-- A scope that is entered was cut from another one. -/
def Cuts (text : List Char) : Note → Prop
  | .entered outer scope => ∃ indent deeper, CutFrom text outer scope indent deeper
  | _ => True

/-- The block of the last lines of a scope. -/
theorem cutFrom_of_child? {rest : List (List Char)} {block : List Char} (hscope : scope.IsLines text ls)
    (hindent : IndentedBy indent ls) (hrest : Span.IsLines ⟨start, scope.stop⟩ text rest)
    (hblock : child? indent rest.flatten = some block) :
    ∃ deeper, CutFrom text scope ⟨start, start + byteSize block⟩ indent deeper := by
  have hspan := childSpan?_eq hrest indent
  rw [hblock] at hspan
  rcases childSpan?_cases hrest indent with ⟨hnone, -⟩ | ⟨deeper, own, hdeeper, hbehind, hlongest, hown, hsome⟩
  · rw [hspan] at hnone
    cases hnone
  · have hsame := hspan.symm.trans hsome
    simp only [Option.map_some, Option.some.injEq] at hsame
    exact ⟨deeper, {
      above := ⟨ls, hscope, hindent⟩
      cut := hspan
      inside := ⟨own, hsame ▸ hown, hlongest.indentedBy hbehind, hlongest.deep⟩
      lt := hdeeper }⟩

theorem notesOnly_judgeLeaf (cursor : Cursor) (seen : Reading × Slot) :
    NotesOnly (Cuts text) (judgeLeaf haystack indent cursor seen) := by
  refine .lift fun start _ => ?_
  split <;> exact .pure _

/-- Behind keys at the indentation of a scope, blocks are cut from it. -/
theorem notesOnly_judgeParent {inner : Span → Noting (Option Occurrence)} (hscope : scope.IsLines text ls)
    (hindent : IndentedBy indent ls) (hread : Span.read? ⟨0, scope.stop⟩ text = some haystack)
    (hinner : ∀ block deeper, CutFrom text scope block indent deeper → NotesOnly (Cuts text) (inner block))
    (cursor : Cursor) (reading : Reading) :
    NotesOnly (Cuts text) (judgeParent inner text scope.stop haystack indent cursor reading) := by
  refine .lift fun start hstart => ?_
  split
  · obtain ⟨rest, hrest⟩ := exists_isLines_behind hscope hread hstart
    refine .lift fun lines hlines => ?_
    obtain rfl := Option.some.inj (hrest.read?.symm.trans hlines)
    cases hblock : child? indent rest.flatten with
    | none => exact .pure _
    | some block =>
      obtain ⟨deeper, hcut⟩ := cutFrom_of_child? hscope hindent hrest hblock
      refine .bind (hinner _ deeper hcut) fun found => ?_
      cases found <;> exact .pure _
  · exact .pure _

/-- **Below a run of whole lines, a lookup enters only scopes that are cut from others.** -/
theorem notesOnly_notedIn (leaf : List Char) (keys : List (List Char)) (outer : Span) (hscope : scope.IsLines text ls) :
    ∃ search, notedIn text leaf keys outer scope = (do note (.entered outer scope); search) ∧
      NotesOnly (Cuts text) search := by
  induction keys generalizing outer scope ls with
  | nil =>
    refine ⟨_, rfl, .lift fun lines hlines => ?_⟩
    cases Block.indent? lines with
    | none => exact .pure _
    | some indent =>
      exact .lift fun haystack _ => .rounds (fun _ _ => trivial) (fun _ _ _ => trivial) (fun _ => trivial)
        notesOnly_judgeLeaf haystack _
  | cons key keys ih =>
    refine ⟨_, rfl, .lift fun lines hlines => ?_⟩
    obtain rfl := Option.some.inj (hscope.read?.symm.trans hlines)
    cases hindent : Block.indent? ls.flatten with
    | none => exact .pure _
    | some indent =>
      rw [Block.indent?, hscope.lines_flatten, ← indentedBy_iff] at hindent
      refine .lift fun haystack hread => .rounds (fun _ _ => trivial) (fun _ _ _ => trivial) (fun _ => trivial)
        (notesOnly_judgeParent hscope hindent hread fun block deeper hcut => ?_) haystack _
      obtain ⟨own, hown, -, -⟩ := hcut.inside
      obtain ⟨search, hsearch, hnotes⟩ := ih scope hown
      rw [hsearch]
      exact .bind (.note ⟨indent, deeper, hcut⟩) fun _ => hnotes

/-- **The block of whole lines is the longest run of them with no line shallower than the first**, of those with
content, and there is one if and only if there is such a first line and it is deeper than the parent. So in every scope
that a lookup goes down to no line with content is shallower than its indentation, and that is deeper than the
indentation of the scope it was cut from. -/
theorem childSpan?_longest (text : List Char) :
    (∀ range ls parent, Span.IsLines range text ls → ∃ answer, childSpan? text range parent = some answer ∧
      answer = (child? parent ls.flatten).map (fun block => ⟨range.start, range.start + byteSize block⟩) ∧
      (answer.isSome ↔ ∃ indent, IndentedBy indent ls ∧ parent < indent) ∧
      ∀ block ∈ answer, block.start = range.start ∧
        ∃ indent own, Span.IsLines block text own ∧ IndentedBy indent ls ∧ Longest indent ls own) ∧
    ∀ path, ∃ below, (noted text path).run [] = some ((find? text path).map (·.inBytes text),
        .entered ⟨0, byteSize text⟩ ⟨0, byteSize text⟩ :: below) ∧
      ∀ outer scope, .entered outer scope ∈ below →
        outer.start ≤ scope.start ∧ ∃ indent deeper, CutFrom text outer scope indent deeper := by
  constructor
  · intro range ls parent h
    have hspan := childSpan?_eq h parent
    rcases childSpan?_cases h parent with ⟨hnone, hall⟩ | ⟨indent, own, hdeeper, hindent, hlongest, hown, hsome⟩
    · refine ⟨none, hnone, Option.some.inj (hnone.symm.trans hspan), ?_, by simp⟩
      simp only [Option.isSome_none, Bool.false_eq_true, false_iff, not_exists, not_and, Nat.not_lt]
      exact hall
    · have hexists : ∃ indent, IndentedBy indent ls ∧ parent < indent := ⟨indent, hindent, hdeeper⟩
      refine ⟨_, hsome, Option.some.inj (hsome.symm.trans hspan), ⟨fun _ => hexists, fun _ => rfl⟩, ?_⟩
      intro block hblock
      obtain rfl := Option.some.inj hblock
      exact ⟨rfl, indent, own, hown, hindent, hlongest⟩
  · intro path
    obtain ⟨notes, hrun, hsound⟩ := (answers_noted text path).ends []
    obtain ⟨search, hsearch, hcuts⟩ := notesOnly_notedIn path.leaf.toList (path.parents.map String.toList)
      ⟨0, byteSize text⟩ (Span.isLines_all text)
    rw [show noted text path = _ from hsearch] at hrun
    obtain ⟨below, rfl, hbelow⟩ := hcuts [.entered ⟨0, byteSize text⟩ ⟨0, byteSize text⟩] _ _ hrun
    refine ⟨below, by rw [show noted text path = _ from hsearch, hrun]; rfl, fun outer scope hmem => ?_⟩
    exact ⟨(hsound _ (List.mem_cons_of_mem _ hmem)).1, hbelow _ hmem⟩

/-- A block with a comment in it, and a sibling of its parent behind it. -/
def siblings : List Char := "a:\n  b: 1\n# x\n  c: 2\nd: 3\n".toList

/-- The lines behind the first one. -/
def siblingLines : List (List Char) := ["  b: 1\n", "# x\n", "  c: 2\n", "d: 3\n"].map String.toList

theorem childSpan?_longest_siblings :
    (Span.IsLines ⟨3, 26⟩ siblings siblingLines ∧ childSpan? siblings ⟨3, 26⟩ 0 = some (some ⟨3, 21⟩) ∧
      ∃ own, Span.IsLines ⟨3, 21⟩ siblings own ∧ Longest 2 siblingLines own) ∧
    ∃ indent deeper, CutFrom siblings ⟨0, 26⟩ ⟨3, 21⟩ indent deeper := by
  obtain ⟨hblocks, hscopes⟩ := childSpan?_longest siblings
  constructor
  · have hlines : Span.IsLines ⟨3, 26⟩ siblings siblingLines :=
      ⟨["a:\n".toList], [], by decide +kernel, by decide +kernel⟩
    have hanswer : childSpan? siblings ⟨3, 26⟩ 0 = some (some ⟨3, 21⟩) := by decide +kernel
    have htwo : IndentedBy 2 siblingLines := indentedBy_iff.mpr (by decide +kernel)
    obtain ⟨answer, hsome, -, -, hblock⟩ := hblocks ⟨3, 26⟩ _ 0 hlines
    obtain rfl := Option.some.inj (hanswer.symm.trans hsome)
    obtain ⟨-, indent, own, hown, hindent, hlongest⟩ := hblock _ rfl
    exact ⟨hlines, hanswer, own, hown, hindent.unique htwo ▸ hlongest⟩
  · obtain ⟨below, hrun, hall⟩ := hscopes ⟨["a"], "c"⟩
    have hentered : ∀ r ∈ (noted siblings ⟨["a"], "c"⟩).run [], Note.entered ⟨0, 26⟩ ⟨3, 21⟩ ∈ r.2 := by
      decide +kernel
    rcases List.mem_cons.mp (hentered _ hrun) with hroot | hbelow
    · cases hroot
    · exact (hall _ _ hbelow).2

end ManifestBump.Yaml

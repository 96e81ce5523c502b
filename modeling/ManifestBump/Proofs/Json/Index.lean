import ManifestBump.Proofs.Json.Bytes
import ManifestBump.Proofs.Json.Scope
import ManifestBump.Proofs.Text.Bisect

/-! What an outline tells of its text.

The scan lays literals, braces and other characters side by side, from the beginning of the text to its end
(`tiles_scanFrom`). From the tiles follows where the literals and the braces of an outline lie, and that each brace has
the depth counted up to it (`foldl_counted`). An outline with these properties is `Faithful`: its answers are those that
one comes to by counting braces and looking through the literals. As literals and braces are in order, the same answers
are found by halving (`Halved`). -/
namespace ManifestBump.Outline
open Text Json

variable {text : List Char} {mode : Mode} {n d : Nat}

/-! ### Tiles -/

/-- A brace, in a string or not. -/
def isBrace (c : Char) : Bool := c == '\x7b' || c == '\x7d'

/-- How many objects are open behind a character. -/
def counted (depth : Nat) (c : Char) : Nat :=
  if c = '\x7b' then depth + 1 else if c = '\x7d' then depth - 1 else depth

/-- Whether a string or a comment begins with the text, if that is not in the middle of one. -/
def opens : List Char → Bool
  | [] => false
  | c :: rest => isQuote c || c == '/' && (rest.head? == some '/' || rest.head? == some '*')

/-- An outline lays its tiles from an offset on, `d` objects deep, to the end of the text. -/
inductive Tiles (text : List Char) : (n d : Nat) → Outline → Prop
  | done {n d : Nat} (hend : text.length ≤ n) : Tiles text n d blank
  | plain {n d : Nat} {c : Char} {o : Outline} (hc : text[n]? = some c) (hbrace : isBrace c = false)
    (hopens : opens (text.drop n) = false) (behind : Tiles text (n + 1) d o) : Tiles text n d o
  | brace {n d : Nat} {c : Char} {o : Outline} (hc : text[n]? = some c) (hbrace : isBrace c = true)
    (behind : Tiles text (n + 1) (counted d c) o) : Tiles text n d (addBrace n (counted d c) o)
  | literal {n d stop : Nat} {o : Outline} (hopens : opens (text.drop n) = true) (hlt : n < stop)
    (hle : stop ≤ text.length) (behind : Tiles text stop d o) : Tiles text n d (addLiteral n stop o)

@[simp] theorem literals_addLiteral (start stop : Nat) (o : Outline) :
    (addLiteral start stop o).literals = ⟨start, stop⟩ :: o.literals := rfl

@[simp] theorem braces_addLiteral (start stop : Nat) (o : Outline) : (addLiteral start stop o).braces = o.braces := rfl

@[simp] theorem literals_addBrace (n d : Nat) (o : Outline) : (addBrace n d o).literals = o.literals := rfl

@[simp] theorem braces_addBrace (n d : Nat) (o : Outline) : (addBrace n d o).braces = ⟨n, d⟩ :: o.braces := rfl

/-- In a literal, a step goes on in it, or ends it behind itself, or ends it in front of a line feed. -/
theorem step_in_literal {s : Nat} (h : mode.start? = some s) (n d : Nat) (c : Char) (next : Option Char) :
    (∃ k, step mode n d c next = ⟨k, blank, mode, d⟩) ∨
      (∃ k, step mode n d c next = ⟨k, ⟨[⟨s, n + 1 + k⟩], []⟩, .code, d⟩) ∨
      c = '\n' ∧ step mode n d c next = ⟨0, ⟨[⟨s, n⟩], []⟩, .code, d⟩ := by
  cases mode with
  | code => cases h
  | string | lineComment | blockComment =>
    cases h
    simp only [step]
    repeat' split
    all_goals
      first
      | exact .inl ⟨_, rfl⟩
      | exact .inr (.inl ⟨_, rfl⟩)
      | exact .inr (.inr ⟨by assumption, rfl⟩)

/-- **A literal ends**, at the latest with the text, and the scan goes on in code. -/
theorem exists_end_of_literal {s : Nat} (h : mode.start? = some s) (n d : Nat) (rest : List Char) :
    ∃ k, k ≤ rest.length ∧ scanFrom mode n d rest = addLiteral s (n + k) (scanFrom .code (n + k) d (rest.drop k)) := by
  induction hlen : rest.length using Nat.strong_induction_on generalizing n rest with
  | _ len ih =>
    subst hlen
    cases rest with
    | nil =>
      refine ⟨0, le_rfl, ?_⟩
      rw [scanFrom_nil]
      cases mode with
      | code => cases h
      | string | lineComment | blockComment =>
        cases h
        rfl
    | cons c rest =>
      rw [scanFrom_cons]
      rcases step_in_literal h n d c rest.head? with ⟨k, hstep⟩ | ⟨k, hstep⟩ | ⟨rfl, hstep⟩
      · have hmore : k ≤ rest.length := by simpa [hstep] using step_more_le_length mode n d c rest
        rw [hstep]
        obtain ⟨j, hj, hscan⟩ := ih (rest.drop k).length (by simp) (n + 1 + k) (rest.drop k) rfl
        rw [List.length_drop] at hj
        refine ⟨j + k + 1, by rw [List.length_cons]; omega, ?_⟩
        rw [List.drop_succ_cons, show n + (j + k + 1) = n + 1 + k + j by omega, Nat.add_comm j k, ← List.drop_drop]
        exact hscan
      · have hmore : k ≤ rest.length := by simpa [hstep] using step_more_le_length mode n d c rest
        rw [hstep]
        refine ⟨k + 1, by rw [List.length_cons]; omega, ?_⟩
        rw [List.drop_succ_cons, show n + (k + 1) = n + 1 + k by omega]
        rfl
      · -- The line feed is left to the code behind the string or comment.
        rw [hstep]
        exact ⟨0, Nat.zero_le _, rfl⟩

/-- In code, a step begins a literal where one opens. -/
theorem step_of_opens {c : Char} {rest : List Char} (h : opens (c :: rest) = true) (n d : Nat) :
    ∃ k m, step .code n d c rest.head? = ⟨k, blank, m, d⟩ ∧ m.start? = some n := by
  simp only [opens, Bool.or_eq_true, Bool.and_eq_true, beq_iff_eq] at h
  rcases h with hquote | ⟨rfl, hnext | hnext⟩
  · rcases isQuote_iff.mp hquote with rfl | rfl
    · exact ⟨0, .string '"' n, rfl, rfl⟩
    · exact ⟨0, .string '\'' n, rfl, rfl⟩
  · exact ⟨1, .lineComment n, by rw [hnext]; rfl, rfl⟩
  · exact ⟨1, .blockComment n, by rw [hnext]; rfl, rfl⟩

/-- In code, a step finds a brace. -/
theorem step_of_isBrace {c : Char} (h : isBrace c = true) (n d : Nat) (next : Option Char) :
    step .code n d c next = ⟨0, ⟨[], [⟨n, counted d c⟩]⟩, .code, counted d c⟩ := by
  simp only [isBrace, Bool.or_eq_true, beq_iff_eq] at h
  rcases h with rfl | rfl <;> rfl

/-- In code, a step passes over any other character. -/
theorem step_of_neither {c : Char} {rest : List Char} (hopens : opens (c :: rest) = false) (hbrace : isBrace c = false)
    (n d : Nat) : step .code n d c rest.head? = ⟨0, blank, .code, d⟩ := by
  simp only [opens, isQuote, isBrace, Bool.or_eq_false_iff, Bool.and_eq_false_iff, beq_eq_false_iff_ne] at hopens hbrace
  obtain ⟨⟨h₁, h₂⟩, hcomment⟩ := hopens
  have hline : ¬(c = '/' ∧ rest.head? = some '/') := by grind
  have hblock : ¬(c = '/' ∧ rest.head? = some '*') := by grind
  simp only [step, if_neg hline, if_neg hblock, if_neg hbrace.1, if_neg hbrace.2, h₁, h₂, or_self, if_false]

theorem not_isBrace_of_opens {c : Char} {rest : List Char} (h : opens (c :: rest) = true) : isBrace c = false := by
  simp only [opens, isQuote, Bool.or_eq_true, Bool.and_eq_true, beq_iff_eq] at h
  rcases h with (rfl | rfl) | ⟨rfl, -⟩ <;> rfl

/-- **The scan lays tiles** from wherever it is in code to the end of the text. -/
theorem tiles_scanFrom (text : List Char) (n d : Nat) (hn : n ≤ text.length) :
    Tiles text n d (scanFrom .code n d (text.drop n)) := by
  induction hlen : text.length - n using Nat.strong_induction_on generalizing n d with
  | _ len ih =>
    subst hlen
    cases hdrop : text.drop n with
    | nil => exact .done (List.drop_eq_nil_iff.mp hdrop)
    | cons c rest =>
      have hc : text[n]? = some c := by rw [← List.head?_drop, hdrop]; rfl
      have hlt : n < text.length := (List.getElem?_eq_some_iff.mp hc).1
      have hrest : text.drop (n + 1) = rest := by rw [← List.drop_drop, hdrop]; rfl
      have hnext : ∀ d, Tiles text (n + 1) d (scanFrom .code (n + 1) d rest) := by
        intro d
        rw [← hrest]
        exact ih _ (by omega) (n + 1) d hlt rfl
      rw [scanFrom_cons]
      cases hopens : opens (c :: rest) with
      | true =>
        obtain ⟨k, m, hstep, hm⟩ := step_of_opens hopens n d
        obtain ⟨j, hj, hscan⟩ := exists_end_of_literal hm (n + 1 + k) d (rest.drop k)
        have hmore : k ≤ rest.length := by simpa [hstep] using step_more_le_length .code n d c rest
        have hsize := congrArg List.length hrest
        rw [List.length_drop] at hj hsize
        have hbehind : text.drop (n + 1 + k + j) = (rest.drop k).drop j := by
          rw [← hrest, List.drop_drop, List.drop_drop, Nat.add_assoc]
        rw [hstep]
        show Tiles text n d (scanFrom m (n + 1 + k) d (rest.drop k))
        rw [hscan, ← hbehind]
        exact .literal (hdrop ▸ hopens) (by omega) (by omega) (ih _ (by omega) _ d (by omega) rfl)
      | false =>
        cases hbrace : isBrace c with
        | true =>
          rw [step_of_isBrace hbrace]
          exact .brace hc hbrace (hnext _)
        | false =>
          rw [step_of_neither hopens hbrace]
          exact .plain hc hbrace (hdrop ▸ hopens) (hnext _)

/-! ### Where literals lie -/

variable {o : Outline}

/-- Literals lie behind one another, each where one opens. -/
theorem Tiles.literals (h : Tiles text n d o) :
    (∀ s ∈ o.literals, n ≤ s.start ∧ s.start < s.stop ∧ s.stop ≤ text.length ∧ opens (text.drop s.start) = true) ∧
      o.literals.Pairwise fun s t => s.stop ≤ t.start := by
  induction h with
  | done => exact ⟨by simp [blank], by simp [blank]⟩
  | plain _ _ _ _ ih | brace _ _ _ ih =>
    refine ⟨fun s hs => ?_, ih.2⟩
    obtain ⟨hstart, hs⟩ := ih.1 s hs
    exact ⟨by omega, hs⟩
  | literal hopens hlt hle _ ih =>
    refine ⟨fun s hs => ?_, List.pairwise_cons.mpr ⟨fun t ht => (ih.1 t ht).1, ih.2⟩⟩
    rcases List.mem_cons.mp hs with rfl | hs
    · exact ⟨le_rfl, hlt, hle, hopens⟩
    · obtain ⟨hstart, hs⟩ := ih.1 s hs
      exact ⟨by omega, hs⟩

theorem Tiles.braces (h : Tiles text n d o) : ∀ b ∈ o.braces, n ≤ b.offset := by
  induction h with
  | done => simp [blank]
  | plain _ _ _ _ ih =>
    intro b hb
    have := ih b hb
    omega
  | brace _ _ _ ih =>
    intro b hb
    rcases List.mem_cons.mp hb with rfl | hb
    · exact le_rfl
    · have := ih b hb
      omega
  | literal _ hlt _ _ ih =>
    intro b hb
    have := ih b hb
    omega

/-- **A brace is found where one stands outside of literals.** -/
theorem Tiles.brace_iff (h : Tiles text n d o) {m : Nat} (hm : n ≤ m) :
    (∃ b ∈ o.braces, b.offset = m) ↔
      (∃ c, text[m]? = some c ∧ isBrace c = true) ∧ ∀ s ∈ o.literals, s.contains m = false := by
  induction h with
  | done hend => simp [blank, List.getElem?_eq_none (hend.trans hm)]
  | @plain n d c o hc hbrace _ behind ih =>
    rcases Nat.eq_or_lt_of_le hm with rfl | hlt
    · have hnone : ¬∃ b ∈ o.braces, b.offset = n := by
        rintro ⟨b, hb, rfl⟩
        have := behind.braces b hb
        omega
      simp [hnone, hc, hbrace]
    · exact ih hlt
  | @brace n d c o hc hbrace behind ih =>
    rcases Nat.eq_or_lt_of_le hm with rfl | hlt
    · refine iff_of_true ⟨_, List.mem_cons_self, rfl⟩ ⟨⟨c, hc, hbrace⟩, fun s hs => ?_⟩
      have := (behind.literals.1 s hs).1
      simp only [Span.contains, Bool.and_eq_false_iff, decide_eq_false_iff_not]
      omega
    · simpa [hlt.ne] using ih hlt
  | @literal n d stop o _ _ _ behind ih =>
    by_cases hlt : m < stop
    · refine iff_of_false ?_ ?_
      · rintro ⟨b, hb, rfl⟩
        have := behind.braces b hb
        omega
      · rintro ⟨-, hout⟩
        have := hout ⟨n, stop⟩ List.mem_cons_self
        simp [Span.contains, hm, hlt] at this
    · have hout : (⟨n, stop⟩ : Span).contains m = false := by simp [Span.contains, hlt]
      simpa [hout] using ih (by omega)

/-- Where a string or a comment opens, a literal lies. -/
theorem Tiles.inLiteral_of_opens (h : Tiles text n d o) {m : Nat} (hm : n ≤ m) (hopens : opens (text.drop m) = true) :
    o.inLiteral m = true := by
  induction h with
  | done hend =>
    rw [List.drop_eq_nil_of_le (hend.trans hm)] at hopens
    cases hopens
  | plain _ _ hnot _ ih =>
    rcases Nat.eq_or_lt_of_le hm with rfl | hlt
    · rw [hnot] at hopens
      cases hopens
    · exact ih hlt
  | @brace n d c o hc hbrace _ ih =>
    rcases Nat.eq_or_lt_of_le hm with rfl | hlt
    · obtain ⟨hlt, rfl⟩ := List.getElem?_eq_some_iff.mp hc
      rw [List.drop_eq_getElem_cons hlt] at hopens
      rw [not_isBrace_of_opens hopens] at hbrace
      cases hbrace
    · exact ih hlt
  | @literal n d stop o _ _ _ _ ih =>
    by_cases hlt : m < stop
    · exact List.any_eq_true.mpr ⟨⟨n, stop⟩, List.mem_cons_self, by simp [Span.contains, hm, hlt]⟩
    · rw [inLiteral, literals_addLiteral, List.any_cons, Bool.or_eq_true]
      exact .inr (ih (by omega))

/-! ### Depths -/

/-- How deep a text is at an offset, counted over the braces in front of it, from left to right. -/
def countAt (text : List Char) (o : Outline) (n : Nat) : Nat :=
  ((o.braces.filter (·.offset < n)).filterMap (text[·.offset]?)).foldl counted 0

/-- **The depth of the last brace is the count over all of them.** -/
theorem Tiles.foldl_counted (h : Tiles text n d o) (m : Nat) :
    ((o.braces.filter (·.offset < m)).filterMap (text[·.offset]?)).foldl counted d =
      ((o.braces.takeWhile (·.offset < m)).getLast?.map Brace.depth).getD d := by
  induction h with
  | done => rfl
  | plain _ _ _ _ ih => exact ih
  | literal _ _ _ _ ih => exact ih
  | @brace n d c o hc hbrace behind ih =>
    rw [braces_addBrace]
    by_cases hlt : n < m
    · rw [List.filter_cons_of_pos (by simpa using hlt),
        List.filterMap_cons_some (f := fun b : Brace => text[b.offset]?) hc, List.foldl_cons, ih,
        List.takeWhile_cons_of_pos (by simpa using hlt), List.getLast?_cons]
      cases (o.braces.takeWhile _).getLast? <;> rfl
    · have hnone : o.braces.filter (fun b => decide (b.offset < m)) = [] :=
        List.filter_eq_nil_iff.mpr fun b hb => by
          have := behind.braces b hb
          simp only [decide_eq_true_eq]
          omega
      rw [List.filter_cons_of_neg (by simpa using hlt), hnone, List.takeWhile_cons_of_neg (by simpa using hlt)]
      rfl

/-- Behind a brace, the depth is the one noted with it. -/
theorem depthAt_behind (hsorted : o.braces.Pairwise fun a b => a.offset < b.offset) {b : Brace} (hb : b ∈ o.braces) :
    o.depthAt (b.offset + 1) = b.depth := by
  obtain ⟨bs, cs, hsplit⟩ := List.append_of_mem hb
  rw [hsplit] at hsorted
  obtain ⟨-, hbehind, hfront⟩ := List.pairwise_append.mp hsorted
  have hrun : ∀ a ∈ bs ++ [b], decide (a.offset < b.offset + 1) = true := by
    intro a ha
    rcases List.mem_append.mp ha with ha | ha
    · have := hfront a ha b List.mem_cons_self
      exact decide_eq_true (by omega)
    · rw [List.mem_singleton.mp ha]
      exact decide_eq_true (by omega)
  have hstops : Stops (fun a : Brace => decide (a.offset < b.offset + 1)) cs := by
    intro a ha
    have := (List.pairwise_cons.mp hbehind).1 a (List.mem_of_mem_head? ha)
    exact decide_eq_false (by omega)
  rw [depthAt, hsplit, List.append_cons, takeWhile_append hrun hstops, List.getLast?_concat]

/-- An object closes at the first brace behind its own that leaves less open than its own does. -/
theorem closingBrace?_eq_find? (hsorted : o.braces.Pairwise fun a b => a.offset < b.offset) {b : Brace}
    (hb : b ∈ o.braces) :
    o.closingBrace? b.offset = (o.braces.map Brace.offset).find? fun m =>
      b.offset < m && o.depthAt (m + 1) < o.depthAt (b.offset + 1) := by
  obtain ⟨bs, cs, hsplit⟩ := List.append_of_mem hb
  have hsorted' := hsorted
  rw [hsplit] at hsorted'
  obtain ⟨-, hbehind, hfront⟩ := List.pairwise_append.mp hsorted'
  rw [closingBrace?_of_split hsorted hsplit, List.find?_map]
  congr 1
  have hnone : bs.find? ((fun m => b.offset < m && o.depthAt (m + 1) < o.depthAt (b.offset + 1)) ∘ Brace.offset) =
      none := by
    refine List.find?_eq_none.mpr fun a ha => ?_
    have := hfront a ha b List.mem_cons_self
    simp only [Function.comp, Bool.and_eq_true, decide_eq_true_eq]
    omega
  rw [hsplit, List.find?_append, hnone, Option.none_or, List.find?_cons_of_neg (by simp)]
  refine List.find?_congr fun c hc => ?_
  have hlt := (List.pairwise_cons.mp hbehind).1 c hc
  have hmem : c ∈ o.braces := by
    rw [hsplit]
    exact List.mem_append_right _ (List.mem_cons_of_mem _ hc)
  simp [hlt, depthAt_behind hsorted hmem, depthAt_behind hsorted hb]

/-! ### Faithful outlines -/

/-- The literals and the braces are those of the text, in its order, and the answers are those that one comes to by
counting the braces from left to right and looking through the literals. -/
structure Faithful (text : List Char) (o : Outline) : Prop where
  nonempty : ∀ s ∈ o.literals, s.start < s.stop
  inside : ∀ s ∈ o.literals, s.stop ≤ text.length
  apart : o.literals.Pairwise fun s t => s.stop ≤ t.start
  opened : ∀ s ∈ o.literals, opens (text.drop s.start) = true
  covered : ∀ n, opens (text.drop n) = true → o.inLiteral n = true
  ordered : o.braces.Pairwise fun a b => a.offset < b.offset
  brace_iff : ∀ n, (∃ b ∈ o.braces, b.offset = n) ↔
    (∃ c, text[n]? = some c ∧ isBrace c = true) ∧ ∀ s ∈ o.literals, s.contains n = false
  depthAt_eq : ∀ n, o.depthAt n = countAt text o n
  startsLiteral_iff : ∀ n, o.startsLiteral n = true ↔ ∃ s ∈ o.literals, s.start = n
  inLiteral_iff : ∀ n, o.inLiteral n = true ↔ ∃ s ∈ o.literals, s.start ≤ n ∧ n < s.stop
  closingBrace?_eq : ∀ b ∈ o.braces, o.closingBrace? b.offset = (o.braces.map Brace.offset).find? fun m =>
    b.offset < m && countAt text o (m + 1) < countAt text o (b.offset + 1)

/-- **The outline of a text is faithful to it**, well formed or not. -/
theorem faithful_scan (text : List Char) : Faithful text (scan text) := by
  have htiles : Tiles text 0 0 (scan text) := tiles_scanFrom text 0 0 (Nat.zero_le _)
  have hdepth : ∀ n, (scan text).depthAt n = countAt text (scan text) n := by
    intro n
    rw [countAt, htiles.foldl_counted, depthAt]
    cases ((scan text).braces.takeWhile _).getLast? <;> rfl
  exact {
    nonempty := fun s hs => (htiles.literals.1 s hs).2.1
    inside := fun s hs => (htiles.literals.1 s hs).2.2.1
    apart := htiles.literals.2
    opened := fun s hs => (htiles.literals.1 s hs).2.2.2
    covered := fun n hn => htiles.inLiteral_of_opens (Nat.zero_le n) hn
    ordered := sorted_braces text
    brace_iff := fun n => htiles.brace_iff (Nat.zero_le n)
    depthAt_eq := hdepth
    startsLiteral_iff := fun n => by simp [startsLiteral]
    inLiteral_iff := fun n => by simp [inLiteral, Span.contains]
    closingBrace?_eq := fun b hb => by simpa only [hdepth] using closingBrace?_eq_find? (sorted_braces text) hb }

/-- A closing brace too many leaves nothing open, and braces in strings are passed over. -/
example : scan "\x7d\x7b'\x7b'\x7d".toList = ⟨[⟨2, 5⟩], [⟨0, 0⟩, ⟨1, 1⟩, ⟨5, 0⟩]⟩ := by decide

/-! ### Answers found by halving -/

/-- How many objects are open, read off the last brace in front. -/
def halvedDepth? (o : Outline) (n : Nat) : Option Nat :=
  match partitionPoint (fun b => b.offset < n) o.braces with
  | 0 => some 0
  | k + 1 => o.braces[k]?.map Brace.depth

/-- Where an object closes, looked for behind the first brace that is not in front of its own. -/
def halvedClosing? (o : Outline) (opening : Nat) : Option Nat :=
  let k := partitionPoint (fun b => b.offset < opening) o.braces
  match o.braces[k]? with
  | none => none
  | some brace => ((o.braces.drop (k + 1)).find? (·.depth < brace.depth)).map Brace.offset

/-- Whether the first literal that begins no earlier begins there. -/
def halvedStart (o : Outline) (n : Nat) : Bool :=
  o.literals[partitionPoint (fun s => s.start < n) o.literals]?.any (·.start == n)

/-- Whether the last literal that begins no later goes on there. -/
def halvedIn? (o : Outline) (n : Nat) : Option Bool :=
  match partitionPoint (fun s => s.start ≤ n) o.literals with
  | 0 => some false
  | k + 1 => o.literals[k]?.map (·.contains n)

/-- Halving finds every answer, and never looks behind the end of a list. -/
structure Halved (o : Outline) : Prop where
  depthAt : ∀ n, o.halvedDepth? n = some (o.depthAt n)
  closingBrace? : ∀ n, o.halvedClosing? n = o.closingBrace? n
  startsLiteral : ∀ n, o.halvedStart n = o.startsLiteral n
  inLiteral : ∀ n, o.halvedIn? n = some (o.inLiteral n)

section Halving
variable (hordered : o.braces.Pairwise fun a b => a.offset < b.offset)
include hordered

theorem cut_braces (n : Nat) : ∃ run rest, o.braces = run ++ rest ∧
    (∀ b ∈ run, decide (b.offset < n) = true) ∧ ∀ b ∈ rest, decide (b.offset < n) = false :=
  Partitioned.cut (hordered.imp fun hlt hb => by simp only [decide_eq_true_eq] at hb ⊢; omega)

theorem halvedDepth?_eq (n : Nat) : o.halvedDepth? n = some (o.depthAt n) := by
  obtain ⟨run, rest, hsplit, hrun, hrest⟩ := cut_braces hordered n
  have hstops : Stops _ rest := fun b hb => hrest b (List.mem_of_mem_head? hb)
  simp only [halvedDepth?, depthAt, hsplit, partitionPoint_append hrun hrest, takeWhile_append hrun hstops]
  rcases List.eq_nil_or_concat run with rfl | ⟨front, b, rfl⟩
  · rfl
  · simp

theorem halvedClosing?_eq (n : Nat) : o.halvedClosing? n = o.closingBrace? n := by
  obtain ⟨run, rest, hsplit, hrun, hrest⟩ := cut_braces hordered n
  have hstops : Stops _ rest := fun b hb => hrest b (List.mem_of_mem_head? hb)
  simp only [halvedClosing?, closingBrace?, hsplit, partitionPoint_append hrun hrest, dropWhile_append hrun hstops]
  cases rest with
  | nil => simp
  | cons b rest => simp

end Halving

section Halving
variable (hnonempty : ∀ s ∈ o.literals, s.start < s.stop) (hapart : o.literals.Pairwise fun s t => s.stop ≤ t.start)
include hnonempty hapart

/-- Literals begin one behind the other. -/
theorem sorted_literals : o.literals.Pairwise fun s t => s.start < t.start :=
  hapart.imp_of_mem fun hs _ hle => (hnonempty _ hs).trans_le hle

theorem halvedStart_eq (n : Nat) : o.halvedStart n = o.startsLiteral n := by
  have hsorted := sorted_literals hnonempty hapart
  obtain ⟨run, rest, hsplit, hrun, hrest⟩ := Partitioned.cut (p := fun s : Span => decide (s.start < n))
    (hsorted.imp fun hlt hs => by simp only [decide_eq_true_eq] at hs ⊢; omega)
  rw [hsplit] at hsorted
  have hfront : run.any (fun s => s.start == n) = false := List.any_eq_false.mpr fun s hs => by
    have := of_decide_eq_true (hrun s hs)
    simpa using this.ne
  simp only [halvedStart, startsLiteral, hsplit, partitionPoint_append hrun hrest, List.any_append, hfront,
    Bool.false_or]
  cases rest with
  | nil => simp
  | cons s rest =>
    have hbehind : rest.any (fun s => s.start == n) = false := List.any_eq_false.mpr fun t ht => by
      have hge := of_decide_eq_false (hrest s List.mem_cons_self)
      have hlt := (List.pairwise_cons.mp (List.pairwise_append.mp hsorted).2.1).1 t ht
      simp only [beq_iff_eq]
      omega
    simp [hbehind]

theorem halvedIn?_eq (n : Nat) : o.halvedIn? n = some (o.inLiteral n) := by
  obtain ⟨run, rest, hsplit, hrun, hrest⟩ := Partitioned.cut (p := fun s : Span => decide (s.start ≤ n))
    ((sorted_literals hnonempty hapart).imp fun hlt hs => by simp only [decide_eq_true_eq] at hs ⊢; omega)
  rw [hsplit] at hapart
  have hbehind : rest.any (fun s => s.contains n) = false := List.any_eq_false.mpr fun s hs => by
    have := of_decide_eq_false (hrest s hs)
    simp [Span.contains, this]
  simp only [halvedIn?, inLiteral, hsplit, partitionPoint_append hrun hrest, List.any_append, hbehind, Bool.or_false]
  rcases List.eq_nil_or_concat run with rfl | ⟨front, s, rfl⟩
  · rfl
  · -- All other literals end in front of the last one.
    have hfront : front.any (fun t => t.contains n) = false := List.any_eq_false.mpr fun t ht => by
      rw [List.concat_eq_append] at hapart
      have hle := (List.pairwise_append.mp (List.pairwise_append.mp hapart).1).2.2 t ht s List.mem_cons_self
      have hs := of_decide_eq_true (hrun s (by simp))
      simp only [Span.contains, Bool.and_eq_true, decide_eq_true_eq]
      omega
    simp [hfront]

end Halving

theorem Faithful.halved (h : Faithful text o) : Halved o where
  depthAt := halvedDepth?_eq h.ordered
  closingBrace? := halvedClosing?_eq h.ordered
  startsLiteral := halvedStart_eq h.nonempty h.apart
  inLiteral := halvedIn?_eq h.nonempty h.apart

/-- **The outline found in the bytes of a text is faithful to them**, its literals begin and end where characters do,
and it is the outline of the text, counted in bytes. Halving finds its answers. -/
theorem scanBytes?_faithful (text : List Char) :
    ∃ o, scanBytes? text = some o ∧ Faithful (bytes text) o ∧ Halved o ∧
      (∀ s ∈ o.literals, String.Pos.Raw.IsValid (String.ofList text) ⟨s.start⟩ ∧
        String.Pos.Raw.IsValid (String.ofList text) ⟨s.stop⟩) ∧
      o = (scan text).relabel (byteOffset text) ∧ Faithful text (scan text) := by
  have hbytes : Faithful (bytes text) ((scan text).relabel (byteOffset text)) := by
    rw [← scan_bytes]
    exact faithful_scan (bytes text)
  refine ⟨_, scanBytes?_eq text, hbytes, hbytes.halved, fun s hs => ?_, rfl, faithful_scan text⟩
  obtain ⟨s, -, rfl⟩ := List.mem_map.mp hs
  exact ⟨isValid_byteOffset text _, isValid_byteOffset text _⟩

end ManifestBump.Outline

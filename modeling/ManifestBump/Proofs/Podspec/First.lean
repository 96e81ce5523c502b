import ManifestBump.Manifest.Basic
import ManifestBump.Proofs.Podspec.Delimited

/-! The first assignment outside of comments.

The search for a target stands in front of the character that separates the target from what precedes it, and goes on
one place at a time. So it comes to every place where an assignment that counts begins (`Live`), and gives the first of
them (`findTarget?_eq_some_iff`), or finds nothing because there is none (`findTarget?_eq_none_iff`). -/
namespace ManifestBump.Podspec
open Text

/-! ### Comments -/

/-- A piece of a line whose strings are all closed. -/
inductive Closed : List Char → Prop where
  | nil : Closed []
  | char {c : Char} {line : List Char} (hquote : isQuote c = false) (h : Closed line) : Closed (c :: line)
  | string {quote : Char} {body line : List Char} (hquote : isQuote quote = true) (hbody : Body (· == quote) body)
    (h : Closed line) : Closed (quote :: (body ++ quote :: line))

/-- A number sign stands in the line, outside of its strings. -/
def Commented (line : List Char) : Prop := ∃ front back, line = front ++ '#' :: back ∧ Closed front

theorem commentBegins_of_closed {front : List Char} (h : Closed front) (back : List Char) :
    commentBegins none (front ++ '#' :: back) = true := by
  induction h with
  | nil => simp [commentBegins]
  | @char c line hquote _ ih =>
    rw [List.cons_append, commentBegins]
    split
    · rfl
    · simpa [hquote] using ih
  | @string quote body line hquote hbody _ ih =>
    have hsign : quote ≠ '#' := ne_of_isQuote hquote (by decide)
    have hslash : quote ≠ '\\' := ne_of_isQuote hquote (by decide)
    rw [List.cons_append, commentBegins, if_neg hsign, if_pos hquote, List.append_assoc, List.cons_append,
      commentBegins_string hbody hslash]
    exact ih

/-- Inside of a string, its end comes first. -/
theorem commented_of_commentBegins (quote : Option Char) (line : List Char) (h : commentBegins quote line = true) :
    quote.elim (Commented line) fun q =>
      ∃ body rest, line = body ++ q :: rest ∧ Body (· == q) body ∧ Commented rest := by
  induction quote, line using commentBegins.induct with
  | case1 quote => simp [commentBegins] at h
  | case2 rest => exact ⟨[], rest, rfl, .nil⟩
  | case3 c rest hsign ih =>
    rw [commentBegins, if_neg hsign] at h
    have hrest := ih h
    by_cases hquote : isQuote c = true
    · rw [if_pos hquote] at hrest
      obtain ⟨body, rest, rfl, hbody, front, back, rfl, hclosed⟩ := hrest
      exact ⟨c :: (body ++ c :: front), back, by simp, .string hquote hbody hclosed⟩
    · rw [if_neg hquote] at hrest
      obtain ⟨front, back, rfl, hclosed⟩ := hrest
      exact ⟨c :: front, back, rfl, .char (by simpa using hquote) hclosed⟩
  | case4 quote => simp [commentBegins] at h
  | case5 q c rest ih =>
    obtain ⟨body, rest, rfl, hbody, hrest⟩ := ih h
    exact ⟨'\\' :: c :: body, rest, rfl, .hidden c hbody, hrest⟩
  | case6 q c rest hlast hhidden ih =>
    rw [commentBegins] at h
    · by_cases hc : c = q
      · rw [if_pos hc] at h ih
        exact ⟨[], rest, by rw [hc]; rfl, .nil, ih h⟩
      · rw [if_neg hc] at h ih
        obtain ⟨body, rest, rfl, hbody, hrest⟩ := ih h
        refine ⟨c :: body, rest, rfl, .plain (by simpa using hc) ?_ hbody, hrest⟩
        rintro rfl
        cases body with
        | nil => exact hhidden _ _ rfl rfl
        | cons d body => exact hhidden _ _ rfl rfl
    · exact hlast
    · exact hhidden

/-- **A comment begins at a number sign outside of strings.** -/
theorem commentBegins_iff {line : List Char} : commentBegins none line = true ↔ Commented line := by
  constructor
  · exact commented_of_commentBegins none line
  · rintro ⟨front, back, rfl, hclosed⟩
    exact commentBegins_of_closed hclosed back

/-! ### The line in front of a place -/

/-- A text is cut where its last line begins. -/
structure EndsWithLine (text earlier line : List Char) : Prop where
  text_eq : text = earlier ++ line
  ends : ∀ c ∈ earlier.getLast?, c = '\n'
  one : '\n' ∉ line

theorem endsWithLine_lineBefore (text : List Char) (n : Nat) :
    ∃ earlier, EndsWithLine (text.take n) earlier (lineBefore text n) := by
  obtain ⟨run, rest, htext, hrun, hstop⟩ := exists_cut (· != '\n') (text.take n).reverse
  have hline : lineBefore text n = run.reverse := by
    rw [lineBefore, htext, takeWhile_append hrun hstop]
  refine ⟨rest.reverse, ?_, ?_, ?_⟩
  · rw [hline, ← List.reverse_append, ← htext, List.reverse_reverse]
  · intro c hc
    rw [List.getLast?_reverse] at hc
    simpa using hstop c hc
  · rw [hline, List.mem_reverse]
    intro hmem
    simpa using hrun _ hmem

theorem EndsWithLine.unique {text earlier earlier' line line' : List Char} (h : EndsWithLine text earlier line)
    (h' : EndsWithLine text earlier' line') : line = line' := by
  have hrun : ∀ {earlier line : List Char}, EndsWithLine text earlier line →
      (∀ c ∈ line.reverse, (c != '\n') = true) ∧ Stops (· != '\n') earlier.reverse := by
    intro earlier line h
    refine ⟨fun c hc => ?_, fun c hc => ?_⟩
    · simpa using fun heq : c = '\n' => h.one (heq ▸ List.mem_reverse.mp hc)
    · rw [List.head?_reverse] at hc
      simpa using h.ends c hc
  have htext : line.reverse ++ earlier.reverse = line'.reverse ++ earlier'.reverse := by
    rw [← List.reverse_append, ← List.reverse_append, ← h.text_eq, ← h'.text_eq]
  exact List.reverse_injective (cut_unique (hrun h).1 (hrun h).2 (hrun h').1 (hrun h').2 htext).1

/-- Nothing is in front of the beginning of a line. -/
theorem lineBefore_of_atLineStart {text : List Char} {n : Nat} (h : (Cursor.at text n).atLineStart = true) :
    lineBefore text n = [] := by
  obtain ⟨earlier, hends⟩ := endsWithLine_lineBefore text n
  refine hends.unique ⟨(List.append_nil _).symm, fun c hc => ?_, List.not_mem_nil⟩
  have hlast : (text.take n).getLast? = some c := hc
  simpa [Cursor.at, Cursor.atLineStart, hlast] using h

/-! ### Assignments that count -/

/-- An assignment to `target` that counts begins at a place. -/
structure Live (text target : List Char) (t : Nat) (slot : Slot) : Prop where
  /-- The target stands there, with an equals sign and a quoted value behind it. -/
  assigns : ∃ before behind opening value closing rest, (∀ c ∈ before, isBlank c = true) ∧
    (∀ c ∈ behind, isBlank c = true) ∧ isQuote opening = true ∧ (∀ c ∈ value, isInner c = true) ∧
    isQuote closing = true ∧
    text.drop t = target ++ before ++ '=' :: behind ++ opening :: (value ++ closing :: rest) ∧
    slot = ⟨target ++ before ++ '=' :: behind ++ [opening], value, [closing]⟩
  /-- A line begins there, or the character in front cannot belong to the target. -/
  apart : ∀ c ∈ (text.take t).getLast?, c = '\n' ∨ isWord c = false ∧ c ≠ '.'
  /-- No comment begins in front of it on its line. -/
  code : ∀ earlier line, EndsWithLine (text.take t) earlier line → ¬Commented line

theorem code_iff {text : List Char} {t : Nat} : commentBegins none (lineBefore text t) = false ↔
    ∀ earlier line, EndsWithLine (text.take t) earlier line → ¬Commented line := by
  obtain ⟨earlier, hends⟩ := endsWithLine_lineBefore text t
  rw [← Bool.not_eq_true, commentBegins_iff]
  constructor
  · intro h earlier' line hline
    rwa [← hends.unique hline]
  · exact fun h => h earlier _ hends

theorem Live.assignment?_eq {text target : List Char} {t : Nat} {slot : Slot} (h : Live text target t slot) :
    assignment? target (text.drop t) = some slot := assignment?_eq_some_iff.mpr h.assigns

theorem Live.lt_length {text target : List Char} {t : Nat} {slot : Slot} (h : Live text target t slot) :
    t < text.length := by
  obtain ⟨before, behind, opening, value, closing, rest, -, -, -, -, -, htext, -⟩ := h.assigns
  by_contra hle
  rw [List.drop_eq_nil_of_le (by omega)] at htext
  simp at htext

/-- The character in front of a place. -/
theorem getLast?_take_succ {text rest : List Char} {n : Nat} {c : Char} (h : text.drop n = c :: rest) :
    (text.take (n + 1)).getLast? = some c := by
  have hlt : n < text.length := by
    by_contra hle
    rw [List.drop_eq_nil_of_le (by omega)] at h
    cases h
  rw [List.drop_eq_getElem_cons hlt] at h
  rw [List.take_succ_eq_append_getElem hlt, List.getLast?_concat, (List.cons.inj h).1]

/-- A candidate begins where a line does. If no assignment does, it begins behind a character that cannot belong to
its target. -/
theorem apart_of_candidate? {target : List Char} {cursor : Cursor} {k : Nat} {slot : Slot}
    (h : candidate? target cursor = some (k, slot)) : (k = 0 ∧ cursor.atLineStart = true) ∨
      (k = 1 ∧ (cursor.atLineStart = true → assignment? target cursor.rest = none) ∧
        ∃ c rest, cursor.rest = c :: rest ∧ isWord c = false ∧ c ≠ '.') := by
  rw [candidate?_eq, Option.or_eq_some_iff] at h
  rcases h with h | ⟨hnone, h⟩
  · obtain ⟨inner, hinner, heq⟩ := Option.map_eq_some_iff.mp h
    cases heq
    by_cases hline : cursor.atLineStart = true
    · exact .inl ⟨rfl, hline⟩
    · simp [hline] at hinner
  · unfold behindOther? at h
    split at h
    · cases h
    · rename_i c rest htext
      split at h
      · cases h
      · rename_i hforeign
        obtain ⟨inner, -, heq⟩ := Option.map_eq_some_iff.mp h
        cases heq
        exact .inr ⟨rfl, fun hline => by simpa [hline] using hnone, c, rest, htext, by simpa using hforeign⟩

/-- What is found at a place counts there if a line begins there, and else one place further on. -/
theorem live_of_targetAt {text target : List Char} {n : Nat} {found : Occurrence}
    (h : targetAt text target n = some found) :
    ∃ k slot, Live text target (n + k) slot ∧ (k = 0 ∨ k = 1 ∧
      ((Cursor.at text n).atLineStart = true → assignment? target (text.drop n) = none)) ∧
      found = ⟨⟨n, (slot.occurrence (n + k)).full.stop⟩, (slot.occurrence (n + k)).value⟩ := by
  obtain ⟨k, slot, hcandidate, hcode, rfl⟩ := targetAt_eq_some_iff.mp h
  obtain ⟨inner, hinner, rfl, hlen, -⟩ := candidate?_eq_some hcandidate
  have hdrop : text.drop (n + k) = (Cursor.at text n).rest.drop k := List.drop_drop.symm
  have hassigns := assignment?_eq_some_iff.mp (hdrop ▸ hinner)
  have hplace : (⟨⟨n, ((inner.behind ((Cursor.at text n).rest.take k)).occurrence n).full.stop⟩,
      ((inner.behind ((Cursor.at text n).rest.take k)).occurrence n).value⟩ : Occurrence) =
      ⟨⟨n, (inner.occurrence (n + k)).full.stop⟩, (inner.occurrence (n + k)).value⟩ := by
    simp only [Slot.occurrence, Slot.behind, List.length_append, hlen, Nat.add_assoc]
  rcases apart_of_candidate? hcandidate with ⟨rfl, hline⟩ | ⟨rfl, hnone, c, rest, htext, hword, hdot⟩
  · refine ⟨0, inner, ⟨hassigns, fun c hc => .inl ?_, code_iff.mp hcode⟩, .inl rfl, hplace⟩
    have hlast : (text.take n).getLast? = some c := hc
    simpa [Cursor.at, Cursor.atLineStart, hlast] using hline
  · refine ⟨1, inner, ⟨hassigns, fun d hd => .inr ?_, code_iff.mp hcode⟩, .inr ⟨rfl, hnone⟩, hplace⟩
    rw [getLast?_take_succ htext, Option.mem_some_iff] at hd
    exact hd ▸ ⟨hword, hdot⟩

theorem commentBegins_of_atLineStart {text : List Char} {n : Nat} (h : (Cursor.at text n).atLineStart = true) :
    commentBegins none (lineBefore text n) = false := by
  rw [lineBefore_of_atLineStart h]
  rfl

/-- No assignment that begins a line is in a comment. -/
theorem targetAt_of_atLineStart {text target : List Char} {n : Nat} {slot : Slot}
    (hline : (Cursor.at text n).atLineStart = true) (h : assignment? target (text.drop n) = some slot) :
    targetAt text target n = some (slot.occurrence n) := by
  have hcandidate : candidate? target (Cursor.at text n) = some (0, slot) := by
    have hrest : assignment? target (Cursor.at text n).rest = some slot := h
    rw [candidate?_eq, if_pos hline, hrest]
    rfl
  exact targetAt_eq_some_iff.mpr ⟨0, slot, hcandidate, commentBegins_of_atLineStart hline, rfl⟩

/-- In front of an assignment that counts, the search finds something: the assignment, or another one that begins
the line there. -/
theorem targetAt_of_live {text target : List Char} {t : Nat} {slot : Slot} (h : Live text target t slot) :
    (targetAt text target (t - 1)).isSome = true := by
  cases t with
  | zero => rw [targetAt_of_atLineStart rfl h.assignment?_eq]; rfl
  | succ n =>
    by_cases hfirst : (Cursor.at text n).atLineStart = true ∧ (assignment? target (text.drop n)).isSome = true
    · obtain ⟨hline, other, hother⟩ := hfirst.imp id Option.isSome_iff_exists.mp
      rw [Nat.add_sub_cancel, targetAt_of_atLineStart hline hother]
      rfl
    obtain ⟨c, rest, hrest⟩ := List.exists_cons_of_ne_nil (l := text.drop n) (by
      have := h.lt_length
      simpa using Nat.lt_of_succ_lt this)
    have hnext : text.drop (n + 1) = rest := by rw [← List.drop_drop, hrest]; rfl
    have hforeign : (isWord c || c == '.') = false := by
      rcases h.apart c (getLast?_take_succ hrest) with rfl | ⟨hword, hdot⟩
      · decide
      · simp [hword, hdot]
    have hnone : (if (Cursor.at text n).atLineStart then assignment? target (text.drop n) else none) = none := by
      split
      · rename_i hline
        simpa [hline] using hfirst
      · rfl
    have hcandidate : candidate? target (Cursor.at text n) = some (1, slot.behind [c]) := by
      have hcursor : (Cursor.at text n).rest = c :: rest := hrest
      rw [candidate?_eq, hcursor, ← hrest, hnone, Option.map_none, Option.none_or, hrest, behindOther?,
        if_neg (by simp [hforeign]), ← hnext, h.assignment?_eq]
      rfl
    exact Option.isSome_iff_exists.mpr ⟨_, targetAt_eq_some_iff.mpr ⟨1, _, hcandidate, code_iff.mpr h.code, rfl⟩⟩

/-! ### What is found -/

/-- **Nothing is found only if there is no assignment that counts.** -/
theorem findTarget?_eq_none_iff {text target : List Char} :
    findTarget? text target = none ↔ ∀ t slot, ¬Live text target t slot := by
  rw [findTarget?_eq, firstAnswer_eq_none_iff]
  constructor
  · intro h t slot hlive
    have hsome := targetAt_of_live hlive
    have := hlive.lt_length
    rw [h (t - 1) (Nat.zero_le _) (by omega)] at hsome
    cases hsome
  · intro h n _ _
    by_contra hne
    obtain ⟨found, hfound⟩ := Option.ne_none_iff_exists'.mp hne
    obtain ⟨k, slot, hlive, -⟩ := live_of_targetAt hfound
    exact h _ _ hlive

/-- What is found is the first assignment that counts, with the character in front of it. -/
theorem first_of_findTarget? {text target : List Char} {found : Occurrence}
    (h : findTarget? text target = some found) :
    ∃ t slot, Live text target t slot ∧ (∀ s < t, ∀ other, ¬Live text target s other) ∧
      found = ⟨⟨t - 1, (slot.occurrence t).full.stop⟩, (slot.occurrence t).value⟩ := by
  rw [findTarget?_eq, firstAnswer_eq_some_iff] at h
  obtain ⟨n, -, hle, hn, hmin⟩ := h
  obtain ⟨k, slot, hlive, hplace, rfl⟩ := live_of_targetAt hn
  have hearlier : ∀ s other, Live text target s other → n ≤ s - 1 := by
    intro s other hother
    by_contra hlt
    have hsome := targetAt_of_live hother
    rw [hmin (s - 1) (Nat.zero_le _) (by omega)] at hsome
    cases hsome
  have := hearlier _ _ hlive
  refine ⟨n + k, slot, hlive, fun s hs other hother => ?_, ?_⟩
  · -- The search stands here for another place only at the beginning of the text, where a line begins.
    have := hearlier s other hother
    rcases hplace with rfl | ⟨rfl, hnone⟩
    · omega
    · obtain ⟨rfl, rfl⟩ : s = 0 ∧ n = 0 := by omega
      have hassigns := hother.assignment?_eq
      rw [hnone rfl] at hassigns
      cases hassigns
  · congr 2
    omega

theorem findTarget?_eq_some_iff {text target : List Char} {found : Occurrence} :
    findTarget? text target = some found ↔
      ∃ t slot, Live text target t slot ∧ (∀ s < t, ∀ other, ¬Live text target s other) ∧
        found = ⟨⟨t - 1, (slot.occurrence t).full.stop⟩, (slot.occurrence t).value⟩ := by
  constructor
  · exact first_of_findTarget?
  · rintro ⟨t, slot, hlive, hfirst, rfl⟩
    cases hfound : findTarget? text target with
    | none => exact absurd hlive (findTarget?_eq_none_iff.mp hfound t slot)
    | some found =>
      obtain ⟨t', slot', hlive', hfirst', rfl⟩ := first_of_findTarget? hfound
      obtain rfl : t' = t := by
        rcases Nat.lt_trichotomy t' t with hlt | heq | hlt
        · exact absurd hlive' (hfirst t' hlt slot')
        · exact heq
        · exact absurd hlive (hfirst' t hlt slot)
      obtain rfl : slot' = slot := by
        have hslot := hlive'.assignment?_eq
        rw [hlive.assignment?_eq] at hslot
        exact (Option.some.inj hslot).symm
      rfl

/-! ### Left-hand sides -/

/-- A path of two segments or more that begins with the block variable is the left-hand side itself. -/
theorem leftHandSide_eq (block : String) (path : KeyPath) :
    leftHandSide block path =
      if 2 ≤ path.segments.length ∧ path.segments.head? = some block then path.text else block ++ "." ++ path.text := by
  obtain ⟨parents, leaf⟩ := path
  cases parents with
  | nil => simp [leftHandSide, KeyPath.segments]
  | cons first parents => simp [leftHandSide, KeyPath.segments]

/-- The path with the block variable in front. -/
def qualified (block : String) (path : KeyPath) : KeyPath := { path with parents := block :: path.parents }

theorem text_qualified (block : String) (path : KeyPath) : (qualified block path).text = block ++ "." ++ path.text := by
  show ".".intercalate (block :: path.segments) = block ++ "." ++ ".".intercalate path.segments
  exact String.intercalate_cons_of_ne_nil (by simp [KeyPath.segments])

theorem leftHandSide_qualified {block : String} {path : KeyPath} (h : path.segments.head? ≠ some block) :
    leftHandSide block (qualified block path) = leftHandSide block path := by
  rw [leftHandSide_eq block path, if_neg fun hboth => h hboth.2, ← text_qualified]
  exact if_pos rfl

/-! ### Resolving a path -/

/-- **A path is resolved to the first assignment that counts**, and to nothing exactly if there is none. So it does not
matter whether the block variable is written in front of a path that does not begin with it. -/
theorem resolve_first (block content target : String) (path : KeyPath)
    (htarget : target =
      if 2 ≤ path.segments.length ∧ path.segments.head? = some block then path.text else block ++ "." ++ path.text) :
    (∀ found, (Locator.podspec block).resolve content path = .ok found ↔
      ∃ t slot, Live content.toList target.toList t slot ∧
        (∀ s < t, ∀ other, ¬Live content.toList target.toList s other) ∧
        found = ⟨⟨t - 1, (slot.occurrence t).full.stop⟩, (slot.occurrence t).value⟩) ∧
    ((Locator.podspec block).resolve content path = .error (.notFound (.key target)) ↔
      ∀ t slot, ¬Live content.toList target.toList t slot) ∧
    (path.segments.head? ≠ some block →
      (Locator.podspec block).resolve content (qualified block path) =
        (Locator.podspec block).resolve content path) := by
  rw [← leftHandSide_eq] at htarget
  subst htarget
  have hresolve : ∀ path : KeyPath, (Locator.podspec block).resolve content path =
      (findTarget? content.toList (leftHandSide block path).toList).elim
        (.error (.notFound (.key (leftHandSide block path)))) .ok := by
    intro path
    show (Locator.podspec block).resolve content path = Option.elim ((Locator.podspec block).find? content.toList path) _ _
    unfold Locator.resolve
    cases (Locator.podspec block).find? content.toList path <;> rfl
  refine ⟨fun found => ?_, ?_, fun hhead => ?_⟩
  · rw [← findTarget?_eq_some_iff, hresolve]
    cases findTarget? content.toList (leftHandSide block path).toList <;> simp
  · rw [← findTarget?_eq_none_iff, hresolve]
    cases findTarget? content.toList (leftHandSide block path).toList <;> simp
  · rw [hresolve, hresolve, leftHandSide_qualified hhead]

/-- A version behind a comment with another one in it, and a string in front of it on its line. -/
def commented : String := "s.a = '#'; s.b = 1 # s.version = '0'\n; s.version =\n  '1.0' # s.version = '2'\n"

theorem resolve_first_commented :
    (Locator.podspec "s").resolve commented ⟨[], "version"⟩ = .ok ⟨⟨38, 58⟩, ⟨54, 57⟩⟩ ∧
      (∃ t slot, Live commented.toList "s.version".toList t slot ∧
        (∀ s < t, ∀ other, ¬Live commented.toList "s.version".toList s other) ∧
        (⟨⟨38, 58⟩, ⟨54, 57⟩⟩ : Occurrence) = ⟨⟨t - 1, (slot.occurrence t).full.stop⟩, (slot.occurrence t).value⟩) ∧
      (Locator.podspec "s").resolve commented (qualified "s" ⟨[], "version"⟩) =
        (Locator.podspec "s").resolve commented ⟨[], "version"⟩ := by
  have hfound : (Locator.podspec "s").resolve commented ⟨[], "version"⟩ = .ok ⟨⟨38, 58⟩, ⟨54, 57⟩⟩ := by
    decide +kernel
  have hfirst := resolve_first "s" commented "s.version" ⟨[], "version"⟩ (by decide)
  exact ⟨hfound, (hfirst.1 _).mp hfound, hfirst.2.2 (by decide)⟩

end ManifestBump.Podspec

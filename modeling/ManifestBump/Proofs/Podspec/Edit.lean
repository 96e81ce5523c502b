import ManifestBump.Proofs.Podspec.Header

/-! A podspec in which an assigned value is exchanged for another.

Up to the assignment that was found, an assignment to the same target is read at the same places
whatever the value is (`assignment?_exchange`): between its target and its value an assignment has
no quotes, so none can reach over the quote in front of the value. Hence the assignment that was
found before the exchange is found afterwards (`find?_exchange`). -/
namespace ManifestBump.Podspec
open Text

/-! ### Reading an assignment -/

theorem assignment?_eq_some_iff {target text : List Char} {slot : Slot} :
    assignment? target text = some slot ↔
      ∃ before behind opening inner closing rest, (∀ c ∈ before, isBlank c = true) ∧
        (∀ c ∈ behind, isBlank c = true) ∧ isQuote opening = true ∧ (∀ c ∈ inner, isInner c = true) ∧
        isQuote closing = true ∧
        text = target ++ before ++ '=' :: behind ++ opening :: (inner ++ closing :: rest) ∧
        slot = ⟨target ++ before ++ '=' :: behind ++ [opening], inner, [closing]⟩ := by
  constructor
  · intro h
    simp only [assignment?, Option.bind_eq_bind, Option.bind_eq_some_iff] at h
    obtain ⟨tail, htail, h⟩ := h
    rw [after?_eq_some_iff] at htail
    subst htail
    obtain ⟨before, tail, rfl, hbefore, hstop⟩ := exists_cut isBlank tail
    rw [dropWhile_append hbefore hstop, takeWhile_append hbefore hstop] at h
    cases tail with
    | nil => cases h
    | cons c tail =>
      by_cases hc : c = '='
      swap
      · simp [hc] at h
      subst hc
      obtain ⟨behind, tail, rfl, hbehind, hstop'⟩ := exists_cut isBlank tail
      simp only [dropWhile_append hbehind hstop', takeWhile_append hbehind hstop'] at h
      cases tail with
      | nil => cases h
      | cons opening tail =>
        obtain ⟨_, hopening, h⟩ := Option.bind_eq_some_iff.mp h
        have hopening : isQuote opening = true := by simpa [guard] using hopening
        obtain ⟨inner, tail, rfl, hinner, hend⟩ := exists_cut isInner tail
        rw [dropWhile_append hinner hend, takeWhile_append hinner hend] at h
        cases tail with
        | nil => cases h
        | cons closing tail =>
          obtain ⟨_, hclosing, h⟩ := Option.bind_eq_some_iff.mp h
          have hclosing : isQuote closing = true := by simpa [guard] using hclosing
          cases h
          exact ⟨before, behind, opening, inner, closing, tail, hbefore, hbehind, hopening, hinner,
            hclosing, by simp, rfl⟩
  · rintro ⟨before, behind, opening, inner, closing, rest, hbefore, hbehind, hopening, hinner, hclosing,
      rfl, rfl⟩
    have hequals : Stops isBlank ('=' :: (behind ++ opening :: (inner ++ closing :: rest))) :=
      stops_cons_iff.mpr (by decide)
    have hquote : Stops isBlank (opening :: (inner ++ closing :: rest)) :=
      stops_cons_iff.mpr (isBlank_of_isQuote hopening)
    have hend : Stops isInner (closing :: rest) := by
      rcases isQuote_iff.mp hclosing with rfl | rfl <;> exact stops_cons_iff.mpr (by decide)
    have hafter : after? target (target ++ (before ++ '=' :: (behind ++ opening :: (inner ++ closing :: rest)))) =
        some (before ++ '=' :: (behind ++ opening :: (inner ++ closing :: rest))) :=
      after?_eq_some_iff.mpr rfl
    simp [assignment?, hafter, dropWhile_append hbefore hequals, takeWhile_append hbefore hequals,
      dropWhile_append hbehind hquote, takeWhile_append hbehind hquote, dropWhile_append hinner hend,
      takeWhile_append hinner hend, hopening, hclosing, guard]

theorem assignment?_text {target text : List Char} {slot : Slot} (h : assignment? target text = some slot) :
    ∃ rest, text = slot.lead ++ slot.value ++ slot.close ++ rest := by
  obtain ⟨before, behind, opening, inner, closing, rest, -, -, -, -, -, rfl, rfl⟩ :=
    assignment?_eq_some_iff.mp h
  exact ⟨rest, by simp⟩

/-! ### Candidates by places -/

/-- An assignment behind a character that does not belong to its target. -/
def behindOther? (target : List Char) : List Char → Option (Nat × Slot)
  | [] => none
  | c :: rest =>
    if isWord c || c == '.' then none
    else (assignment? target rest).map fun slot => (1, slot.behind [c])

theorem candidate?_eq (target : List Char) (cursor : Cursor) :
    candidate? target cursor =
      ((if cursor.atLineStart then assignment? target cursor.rest else none).map fun slot => (0, slot)).or
        (behindOther? target cursor.rest) := by
  unfold candidate?
  cases if cursor.atLineStart then assignment? target cursor.rest else none with
  | none => cases cursor.rest <;> rfl
  | some slot => rfl

theorem candidate?_eq_some {target : List Char} {cursor : Cursor} {k : Nat} {slot : Slot}
    (h : candidate? target cursor = some (k, slot)) :
    ∃ inner, assignment? target (cursor.rest.drop k) = some inner ∧
      slot = inner.behind (cursor.rest.take k) ∧ (cursor.rest.take k).length = k ∧ k ≤ 1 := by
  rw [candidate?_eq, Option.or_eq_some_iff] at h
  rcases h with h | ⟨-, h⟩
  · obtain ⟨inner, hinner, heq⟩ := Option.map_eq_some_iff.mp h
    cases heq
    split at hinner
    · exact ⟨slot, hinner, rfl, rfl, Nat.zero_le _⟩
    · cases hinner
  · unfold behindOther? at h
    split at h
    · cases h
    · rename_i c rest htext
      split at h
      · cases h
      · obtain ⟨inner, hinner, heq⟩ := Option.map_eq_some_iff.mp h
        cases heq
        exact ⟨inner, by rw [htext]; exact hinner, by rw [htext]; rfl, by rw [htext]; rfl, le_rfl⟩

theorem candidate?_text {target : List Char} {cursor : Cursor} {k : Nat} {slot : Slot}
    (h : candidate? target cursor = some (k, slot)) : ∃ rest, cursor.rest = slot.lead ++ slot.value ++ rest := by
  obtain ⟨inner, hinner, rfl, -, -⟩ := candidate?_eq_some h
  obtain ⟨rest, htext⟩ := assignment?_text hinner
  refine ⟨inner.close ++ rest, ?_⟩
  conv_lhs => rw [← List.take_append_drop k cursor.rest, htext]
  simp [Slot.behind]

/-- Which candidate stands at a place depends on where assignments can be read, not on their values. -/
theorem candidate?_congr {target : List Char} {c c' : Cursor} (hline : c.atLineStart = c'.atLineStart)
    (hhead : c.rest.head? = c'.rest.head?)
    (hhere : (assignment? target c.rest).isSome = (assignment? target c'.rest).isSome)
    (hnext : (∀ slot, candidate? target c ≠ some (0, slot)) →
      (assignment? target c.rest.tail).isSome = (assignment? target c'.rest.tail).isSome) :
    (candidate? target c).map Prod.fst = (candidate? target c').map Prod.fst := by
  have hfirst : (if c.atLineStart then assignment? target c.rest else none).isSome =
      (if c'.atLineStart then assignment? target c'.rest else none).isSome := by
    rw [hline]
    split
    · exact hhere
    · rfl
  rw [candidate?_eq] at hnext ⊢
  rw [candidate?_eq]
  cases hc : if c.atLineStart then assignment? target c.rest else none with
  | some slot =>
    rw [hc] at hfirst
    obtain ⟨slot', hslot'⟩ := Option.isSome_iff_exists.mp hfirst.symm
    rw [hslot']
    rfl
  | none =>
    rw [hc] at hfirst hnext
    have hc' : (if c'.atLineStart then assignment? target c'.rest else none) = none :=
      Option.isSome_eq_false_iff.mp hfirst.symm |> Option.isNone_iff_eq_none.mp
    rw [hc']
    simp only [Option.map_none, Option.none_or] at hnext ⊢
    cases htext : c.rest with
    | nil =>
      cases htext' : c'.rest with
      | nil => rfl
      | cons d rest => simp [htext, htext'] at hhead
    | cons d rest =>
      cases htext' : c'.rest with
      | nil => simp [htext, htext'] at hhead
      | cons d' rest' =>
        obtain rfl : d = d' := by simpa [htext, htext'] using hhead
        rw [htext, htext'] at hnext
        simp only [behindOther?] at hnext ⊢
        split
        · rfl
        · rename_i hforeign
          have hnext := hnext (by
            intro slot hslot
            rw [if_neg hforeign] at hslot
            obtain ⟨inner, -, heq⟩ := Option.map_eq_some_iff.mp hslot
            cases heq)
          simp only [List.tail_cons] at hnext
          cases ha : assignment? target rest <;> cases ha' : assignment? target rest' <;>
            rw [ha, ha'] at hnext <;> first | rfl | cases hnext

/-- The value of an assignment to the target that stands at a place, outside of comments. -/
def targetAt (text target : List Char) (n : Nat) : Option Occurrence :=
  match candidate? target (Cursor.at text n) with
  | none => none
  | some (shift, slot) =>
    if commentBegins none (lineBefore text (n + shift)) then none else some (slot.occurrence n)

theorem targetAt_eq_some_iff {text target : List Char} {n : Nat} {found : Occurrence} :
    targetAt text target n = some found ↔ ∃ k slot, candidate? target (Cursor.at text n) = some (k, slot) ∧
      commentBegins none (lineBefore text (n + k)) = false ∧ found = slot.occurrence n := by
  unfold targetAt
  constructor
  · intro h
    split at h
    · cases h
    · rename_i k slot hcandidate
      split at h
      · cases h
      · rename_i hcomment
        cases h
        exact ⟨k, slot, hcandidate, by simpa using hcomment, rfl⟩
  · intro h
    obtain ⟨k, slot, hcandidate, hcomment, rfl⟩ := h
    simp [hcandidate, hcomment]

theorem candidate?_of_nil {target : List Char} {cursor : Cursor} (h : cursor.rest = []) :
    candidate? target cursor = none := by
  cases hfound : candidate? target cursor with
  | none => rfl
  | some found =>
    obtain ⟨inner, hinner, -⟩ := candidate?_eq_some hfound
    obtain ⟨before, behind, opening, value, closing, rest, -, -, -, -, -, htext, -⟩ :=
      assignment?_eq_some_iff.mp hinner
    rw [h, List.drop_nil] at htext
    simp at htext

/-- **An assignment is found at the first place where there is one.** -/
theorem findTarget?_eq (text target : List Char) :
    findTarget? text target = firstAnswer (targetAt text target) 0 text.length := by
  rw [findTarget?, search_eq_firstAnswer]
  · refine firstAnswer_congr fun n _ _ => ?_
    unfold targetAt
    rcases candidate? target (Cursor.at text n) with - | ⟨shift, slot⟩
    · rfl
    · show (if commentBegins none (lineBefore text (n + shift)) then Attempt.pass 0
        else .found (slot.occurrence n)).answer? =
          if commentBegins none (lineBefore text (n + shift)) then none else some (slot.occurrence n)
      split <;> rfl
  · constructor
    · intro cursor hrest
      rw [candidate?_of_nil hrest]
      rfl
    · intro n skip m hpass hlt hle
      have hzero : skip = 0 := by
        split at hpass
        · cases hpass
          rfl
        · split at hpass <;> cases hpass
          rfl
      omega

/-! ### Assignments in front of a value -/

theorem isInner_of_isVersionChar {c : Char} (h : isVersionChar c = true) : isInner c = true := by
  have hne : ∀ d, isVersionChar d = false → c ≠ d := fun d hd => ne_of_isVersionChar h hd
  simp [isInner, hne '"' (by decide), hne '\'' (by decide), hne '\r' (by decide), hne '\n' (by decide)]

theorem isInner_of_isQuote {c : Char} (h : isQuote c = true) : isInner c = false := by
  rcases isQuote_iff.mp h with rfl | rfl <;> decide

/-- Of two quotes, the one that is behind an assignment's equals sign is not behind the other one. -/
theorem opening_in_front {target u before behind tail more : List Char} {quote opening : Char}
    (hquote : isQuote quote = true) (hlen : target.length ≤ u.length) (hbefore : ∀ c ∈ before, isBlank c = true)
    (hbehind : ∀ c ∈ behind, isBlank c = true)
    (h : u ++ quote :: more = target ++ before ++ '=' :: behind ++ opening :: tail) :
    ∃ z, u ++ [quote] = target ++ before ++ '=' :: behind ++ opening :: z ∧ tail = z ++ more := by
  rcases List.append_eq_append_iff.mp h with ⟨a, ha, htail⟩ | ⟨a, ha, htail⟩
  · cases a with
    | nil =>
      obtain ⟨rfl, htail⟩ := List.cons.inj htail
      exact ⟨[], by rw [ha, List.append_nil], by simpa using htail.symm⟩
    | cons c a =>
      obtain ⟨rfl, -⟩ := List.cons.inj htail
      have hmem : quote ∈ (u ++ quote :: a).drop target.length := by
        rw [List.drop_append_of_le_length hlen]
        simp
      rw [← ha, List.append_assoc, List.drop_left] at hmem
      have hblank := isBlank_of_isQuote hquote
      rcases List.mem_append.mp hmem with hmem | hmem
      · rw [hbefore _ hmem] at hblank
        cases hblank
      · rcases List.mem_cons.mp hmem with rfl | hmem
        · exact absurd hquote (by decide)
        · rw [hbehind _ hmem] at hblank
          cases hblank
  · cases a with
    | nil =>
      obtain ⟨rfl, htail⟩ := List.cons.inj htail
      exact ⟨[], by rw [ha, List.append_nil], by simpa using htail⟩
    | cons c a =>
      have hc : opening = c := (List.cons.inj htail).1
      have htail' : tail = a ++ quote :: more := (List.cons.inj htail).2
      exact ⟨a ++ [quote], by rw [ha, hc]; simp, by rw [htail']; simp⟩

/-- What stands between quotes still does with another value in it or behind it. -/
theorem inner_exchange {inner rest z value value' b : List Char} {closing : Char}
    (hvalue : ∀ c ∈ value, isInner c = true) (hvalue' : ∀ c ∈ value', isInner c = true)
    (hclosing : isQuote closing = true) (hinner : ∀ c ∈ inner, isInner c = true)
    (h : inner ++ closing :: rest = z ++ value ++ b) :
    ∃ inner' rest', (∀ c ∈ inner', isInner c = true) ∧ z ++ value' ++ b = inner' ++ closing :: rest' := by
  rcases run_cases hvalue (isInner_of_isQuote hclosing) h with ⟨y, rfl, rfl⟩ | ⟨y, rfl, -⟩
  · refine ⟨z ++ value' ++ y, rest, fun c hc => ?_, by simp⟩
    rcases List.mem_append.mp hc with hc | hc
    · rcases List.mem_append.mp hc with hc | hc
      · exact hinner c (by simp [hc])
      · exact hvalue' c hc
    · exact hinner c (by simp [hc])
  · exact ⟨inner, y ++ value' ++ b, hinner, by simp⟩

/-- An assignment whose target begins in front of another one's cannot reach over the quote in front
of the other one's value. -/
theorem assignment?_exchange {target w before behind value value' b : List Char} {quote : Char}
    (hquote : isQuote quote = true) (hvalue : ∀ c ∈ value, isInner c = true)
    (hvalue' : ∀ c ∈ value', isInner c = true)
    (h : assignment? target (w ++ (target ++ before ++ '=' :: behind ++ [quote]) ++ value ++ b) ≠ none) :
    assignment? target (w ++ (target ++ before ++ '=' :: behind ++ [quote]) ++ value' ++ b) ≠ none := by
  obtain ⟨slot, hslot⟩ := Option.ne_none_iff_exists'.mp h
  obtain ⟨before₁, behind₁, opening, inner, closing, rest, hbefore, hbehind, hopening, hinner, hclosing,
    htext, -⟩ := assignment?_eq_some_iff.mp hslot
  set u := w ++ target ++ before ++ '=' :: behind with hu
  have hsplit : ∀ v, w ++ (target ++ before ++ '=' :: behind ++ [quote]) ++ v ++ b =
      u ++ quote :: (v ++ b) := by
    intro v
    simp [hu]
  rw [hsplit] at htext ⊢
  -- Its opening quote is the one in front of the value, or stands before it.
  have hlen : target.length ≤ u.length := by
    simp only [hu, List.length_append]
    omega
  obtain ⟨z, hz, htail⟩ := opening_in_front hquote hlen hbefore hbehind htext
  rw [← List.append_assoc] at htail
  obtain ⟨inner', rest', hchars, htext'⟩ := inner_exchange hvalue hvalue' hclosing hinner htail
  have hwhole : u ++ quote :: (value' ++ b) =
      target ++ before₁ ++ '=' :: behind₁ ++ opening :: (inner' ++ closing :: rest') := by
    rw [← htext', show u ++ quote :: (value' ++ b) = (u ++ [quote]) ++ (value' ++ b) by simp, hz]
    simp
  exact Option.ne_none_iff_exists'.mpr ⟨_, assignment?_eq_some_iff.mpr ⟨before₁, behind₁, opening, inner',
    closing, rest', hbefore, hbehind, hopening, hchars, hclosing, hwhole, rfl⟩⟩

/-- An assigned value stands between quotes, behind its target. -/
theorem assignment?_shape {target x value b close : List Char}
    (h : assignment? target (x ++ value ++ b) = some ⟨x, value, close⟩) :
    ∃ before behind opening closing rest, (∀ c ∈ before, isBlank c = true) ∧
      (∀ c ∈ behind, isBlank c = true) ∧ isQuote opening = true ∧ isQuote closing = true ∧
      x = target ++ before ++ '=' :: behind ++ [opening] ∧ b = closing :: rest ∧ close = [closing] := by
  obtain ⟨before, behind, opening, inner, closing, rest, hbefore, hbehind, hopening, -, hclosing, htext,
    heq⟩ := assignment?_eq_some_iff.mp h
  cases heq
  refine ⟨before, behind, opening, closing, rest, hbefore, hbehind, hopening, hclosing, rfl, ?_, rfl⟩
  have hwhole : (target ++ before ++ '=' :: behind ++ [opening]) ++ (value ++ b) =
      (target ++ before ++ '=' :: behind ++ [opening]) ++ (value ++ closing :: rest) := by
    rw [← List.append_assoc, htext]
    simp
  exact List.append_cancel_left (List.append_cancel_left hwhole)

/-- There are neither quotes nor line breaks in an assigned value. -/
theorem inner_of_assignment? {target text : List Char} {slot : Slot} (h : assignment? target text = some slot) :
    ∀ c ∈ slot.value, isInner c = true := by
  obtain ⟨-, -, -, inner, -, -, -, -, -, hinner, -, -, rfl⟩ := assignment?_eq_some_iff.mp h
  exact hinner

/-- An assigned value is exchanged for another one. -/
theorem assignment?_replace {target x value value' b close : List Char}
    (hvalue' : ∀ c ∈ value', isInner c = true)
    (h : assignment? target (x ++ value ++ b) = some ⟨x, value, close⟩) :
    assignment? target (x ++ value' ++ b) = some ⟨x, value', close⟩ := by
  obtain ⟨before, behind, opening, closing, rest, hbefore, hbehind, hopening, hclosing, rfl, rfl, rfl⟩ :=
    assignment?_shape h
  exact assignment?_eq_some_iff.mpr ⟨before, behind, opening, value', closing, rest, hbefore, hbehind,
    hopening, hvalue', hclosing, by simp, rfl⟩

/-! ### The assignment that was found -/

variable {e : Edit} {target : List Char}

theorem assignment?_of_candidate? {n k : Nat} {slot : Slot}
    (h : candidate? target (Cursor.at e.before n) = some (k, slot))
    (hvalue : (slot.occurrence n).value = e.oldSpan) :
    n + k ≤ e.front.length ∧ ∃ close, assignment? target (e.front.drop (n + k) ++ e.old ++ e.back) =
      some ⟨e.front.drop (n + k), e.old, close⟩ := by
  obtain ⟨inner, hinner, rfl, hlen, -⟩ := candidate?_eq_some h
  have hstart : n + (((Cursor.at e.before n).rest.take k) ++ inner.lead).length = e.front.length :=
    congrArg Span.start hvalue
  have hend : n + (((Cursor.at e.before n).rest.take k) ++ inner.lead).length + inner.value.length = e.stop :=
    congrArg Span.stop hvalue
  rw [List.length_append, hlen] at hstart hend
  simp only [Edit.stop] at hend
  have hle : n + k ≤ e.front.length := by omega
  have hrest : (Cursor.at e.before n).rest.drop k = e.front.drop (n + k) ++ e.old ++ e.back := by
    show (e.before.drop n).drop k = _
    rw [List.drop_drop, Edit.before, Edit.drop_front hle]
  rw [hrest] at hinner
  refine ⟨hle, inner.close, ?_⟩
  obtain ⟨rest, htext⟩ := assignment?_text hinner
  rw [List.append_assoc, List.append_assoc, List.append_assoc] at htext
  obtain ⟨hlead, htext⟩ := List.append_inj htext (by rw [List.length_drop]; omega)
  obtain ⟨hold, -⟩ := List.append_inj htext (by omega)
  rw [hinner, hlead, hold]

/-- **An assigned value that was found stands between quotes.** -/
theorem quotes_of_find? {block : String} {path : KeyPath} {found : Occurrence}
    (h : find? block e.before path = some found) (hvalue : found.value = e.oldSpan) :
    ∃ x b quote quote', isQuote quote = true ∧ isQuote quote' = true ∧ e.front = x ++ [quote] ∧
      e.back = quote' :: b := by
  rw [find?, findTarget?_eq, firstAnswer_eq_some_iff] at h
  obtain ⟨n, -, -, hn, -⟩ := h
  obtain ⟨k, slot, hcandidate, -, rfl⟩ := targetAt_eq_some_iff.mp hn
  obtain ⟨hle, close, hassigned⟩ := assignment?_of_candidate? hcandidate hvalue
  obtain ⟨before, behind, opening, closing, rest, -, -, hopening, hclosing, hfront, hback, -⟩ :=
    assignment?_shape hassigned
  refine ⟨e.front.take (n + k) ++ ((leftHandSide block path).toList ++ before ++ '=' :: behind), rest,
    opening, closing, hopening, hclosing, ?_, hback⟩
  rw [List.append_assoc, ← hfront, List.take_append_drop]

/-- Assignments begin at the same places afterwards, as far as the one that was found. -/
theorem isSome_assignment?_shift (hnew : ∀ c ∈ e.new, isInner c = true) {start p : Nat} {close : List Char}
    (hstart : start ≤ e.front.length)
    (h : assignment? target (e.front.drop start ++ e.old ++ e.back) =
      some ⟨e.front.drop start, e.old, close⟩) (hp : p ≤ start) :
    (assignment? target (e.before.drop p)).isSome = (assignment? target (e.after.drop p)).isSome := by
  obtain ⟨before, behind, opening, -, -, -, -, hopening, -, hfront, -, -⟩ := assignment?_shape h
  have hsplit : e.front.drop p =
      (e.front.drop p).take (start - p) ++ (target ++ before ++ '=' :: behind ++ [opening]) := by
    conv_lhs => rw [← List.take_append_drop (start - p) (e.front.drop p)]
    rw [List.drop_drop, Nat.add_sub_cancel' hp, hfront]
  rw [Edit.before, Edit.after, Edit.drop_front (by omega), Edit.drop_front (by omega), hsplit]
  refine Bool.eq_iff_iff.mpr ?_
  rw [Option.isSome_iff_ne_none, Option.isSome_iff_ne_none]
  have hold := inner_of_assignment? h
  exact ⟨assignment?_exchange hopening hold hnew, assignment?_exchange hopening hnew hold⟩

theorem lineBefore_shift {p : Nat} (hp : p ≤ e.front.length) :
    lineBefore e.after p = lineBefore e.before p := by
  simp only [lineBefore, Edit.take_eq_take hp, Edit.shift_of_le hp]

theorem head?_drop_shift {p : Nat} (hp : p < e.front.length) :
    (e.before.drop p).head? = (e.after.drop p).head? := by
  have hne : e.front.drop p ≠ [] := by
    rw [Ne, List.drop_eq_nil_iff]
    omega
  rw [Edit.before, Edit.after, Edit.drop_front hp.le, Edit.drop_front hp.le, List.append_assoc,
    List.append_assoc, List.head?_append_of_ne_nil _ hne, List.head?_append_of_ne_nil _ hne]

/-- Candidates stand at the same places afterwards, as far as the one that was found. -/
theorem candidate?_shift (hnew : ∀ c ∈ e.new, isInner c = true) {n k : Nat} {slot : Slot} {close : List Char}
    (hlt : n + k < e.front.length)
    (hcandidate : candidate? target (Cursor.at e.before n) = some (k, slot))
    (hassigned : assignment? target (e.front.drop (n + k) ++ e.old ++ e.back) =
      some ⟨e.front.drop (n + k), e.old, close⟩) {p : Nat} (hp : p ≤ n) :
    (candidate? target (Cursor.at e.before p)).map Prod.fst =
      (candidate? target (Cursor.at e.after p)).map Prod.fst := by
  have hsame : ∀ p, p ≤ n + k → (assignment? target (e.before.drop p)).isSome =
      (assignment? target (e.after.drop p)).isSome :=
    fun p hp => isSome_assignment?_shift hnew hlt.le hassigned hp
  refine candidate?_congr ?_ (head?_drop_shift (by omega)) (hsame p (by omega)) fun hnot => ?_
  · have htake := Edit.take_eq_take (e := e) (n := p) (by omega)
    rw [Edit.shift_of_le (by omega)] at htake
    simp only [Cursor.at, Cursor.atLineStart, htake]
  · -- Unless the candidate that was found is meant, the place behind is not behind the assignment.
    have hnext : p + 1 ≤ n + k := by
      rcases Nat.lt_or_ge p n with hbehind | hge
      · omega
      · obtain rfl : p = n := by omega
        cases k with
        | zero => exact absurd hcandidate (hnot slot)
        | succ k => omega
    simp only [Cursor.at, List.tail_drop]
    exact hsame (p + 1) hnext

/-- **An assigned value that was found is found after it has been exchanged.** -/
theorem find?_exchange {block : String} {path : KeyPath} {found : Occurrence} (hnew : ∀ c ∈ e.new, isInner c = true)
    (h : find? block e.before path = some found) (hvalue : found.value = e.oldSpan) :
    ∃ found', find? block e.after path = some found' ∧ found'.value = e.newSpan := by
  rw [find?, findTarget?_eq, firstAnswer_eq_some_iff] at h
  obtain ⟨n, -, -, hn, hfirst⟩ := h
  obtain ⟨k, slot, hcandidate, hcomment, rfl⟩ := targetAt_eq_some_iff.mp hn
  obtain ⟨hle, close, hassigned⟩ := assignment?_of_candidate? hcandidate hvalue
  have hlt : n + k < e.front.length := by
    obtain ⟨before, behind, opening, -, -, -, -, -, -, hfront, -, -⟩ := assignment?_shape hassigned
    have := congrArg List.length hfront
    simp only [List.length_drop, List.length_append, List.length_singleton] at this
    omega
  have hplace := fun p (hp : p ≤ n) => candidate?_shift hnew hlt hcandidate hassigned hp
  -- The same candidate stands there afterwards, with the new value.
  obtain ⟨slot', hslot'⟩ : ∃ slot', candidate? (leftHandSide block path).toList (Cursor.at e.after n) =
      some (k, slot') := by
    have hsame := hplace n le_rfl
    rw [hcandidate] at hsame
    obtain ⟨⟨k', slot'⟩, hslot', rfl⟩ := Option.map_eq_some_iff.mp hsame.symm
    exact ⟨slot', hslot'⟩
  have hnew : (slot'.occurrence n).value = e.newSpan := by
    obtain ⟨inner, hinner, rfl, hlen, -⟩ := candidate?_eq_some hslot'
    have hrest : (Cursor.at e.after n).rest.drop k = e.front.drop (n + k) ++ e.new ++ e.back := by
      show (e.after.drop n).drop k = _
      rw [List.drop_drop, Edit.after, Edit.drop_front hle]
    rw [hrest, assignment?_replace hnew hassigned] at hinner
    cases hinner
    simp only [Slot.occurrence, Slot.behind, List.length_append, hlen, List.length_drop, Edit.newSpan,
      Span.mk.injEq]
    omega
  refine ⟨slot'.occurrence n, ?_, hnew⟩
  rw [find?, findTarget?_eq, firstAnswer_eq_some_iff]
  refine ⟨n, Nat.zero_le _, ?_, ?_, fun m _ hm => ?_⟩
  · simp only [Edit.after, List.length_append]
    omega
  · exact targetAt_eq_some_iff.mpr ⟨k, slot', hslot', by rw [lineBefore_shift hle, hcomment], rfl⟩
  · by_contra hne
    obtain ⟨found, hfound⟩ := Option.ne_none_iff_exists'.mp hne
    obtain ⟨k₁, slot₁, hafter, hcode, -⟩ := targetAt_eq_some_iff.mp hfound
    obtain ⟨-, -, -, -, hk₁⟩ := candidate?_eq_some hafter
    have hsame := hplace m hm.le
    rw [hafter] at hsame
    obtain ⟨⟨k₂, slot₂⟩, hbefore, hk⟩ := Option.map_eq_some_iff.mp hsame
    obtain rfl : k₂ = k₁ := hk
    rw [lineBefore_shift (by omega)] at hcode
    have hnone := hfirst m (Nat.zero_le _) hm
    rw [targetAt_eq_some_iff.mpr ⟨k₂, slot₂, hbefore, hcode, rfl⟩] at hnone
    cases hnone

end ManifestBump.Podspec

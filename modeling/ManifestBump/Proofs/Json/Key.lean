import ManifestBump.Manifest.Json
import ManifestBump.Proofs.Text.Cut
import ManifestBump.Proofs.Text.Search

/-! Keys in JSON texts.

A key is read from the front of a text in one way only (`afterKey?_eq_some_iff`), and never at two
places next to each other (`afterKey?_tail`). Hence passing over the place behind a key loses
nothing, and a lookup finds the first answer in its scope (`findIn_leaf`, `findIn_parent`). -/
namespace ManifestBump.Json
open Text

/-! ### Reading a key -/

/-- Space, the key in quotes, and its colon between spaces. -/
def written (opening : Char) (key : List Char) (closing : Char) (before behind : List Char) : List Char :=
  opening :: key ++ closing :: before ++ ':' :: behind

theorem isQuote_iff {c : Char} : isQuote c = true ↔ c = '"' ∨ c = '\'' := by simp [isQuote]

theorem isBlank_of_isQuote {c : Char} (h : isQuote c = true) : isBlank c = false := by
  rcases isQuote_iff.mp h with rfl | rfl <;> decide

theorem isQuote_of_isBlank {c : Char} (h : isBlank c = true) : isQuote c = false := by
  by_contra hquote
  rw [isBlank_of_isQuote (by simpa using hquote)] at h
  cases h

theorem afterKey?_eq_some_iff {key text lead rest : List Char} :
    afterKey? key text = some (lead, rest) ↔
      ∃ opening closing before behind, isQuote opening = true ∧ isQuote closing = true ∧
        (∀ c ∈ before, isBlank c = true) ∧ (∀ c ∈ behind, isBlank c = true) ∧ Stops isBlank rest ∧
        lead = written opening key closing before behind ∧ text = lead ++ rest := by
  constructor
  · intro h
    cases text with
    | nil => cases h
    | cons opening text =>
      simp only [afterKey?, Option.bind_eq_bind, Option.bind_eq_some_iff] at h
      obtain ⟨_, hopening, tail, htail, h⟩ := h
      have hopening : isQuote opening = true := by simpa [guard] using hopening
      rw [after?_eq_some_iff] at htail
      cases tail with
      | nil => cases h
      | cons closing tail =>
        obtain ⟨_, hclosing, h⟩ := Option.bind_eq_some_iff.mp h
        have hclosing : isQuote closing = true := by simpa [guard] using hclosing
        obtain ⟨before, rest', rfl, hbefore, hstop⟩ := exists_cut isBlank tail
        rw [dropWhile_append hbefore hstop, takeWhile_append hbefore hstop] at h
        cases rest' with
        | nil => cases h
        | cons colon rest' =>
          split at h
          · rename_i rest'' heq
            obtain ⟨rfl, rfl⟩ := List.cons.inj heq
            obtain ⟨behind, rest₃, rfl, hbehind, hstop'⟩ := exists_cut isBlank rest'
            rw [dropWhile_append hbehind hstop', takeWhile_append hbehind hstop'] at h
            cases h
            exact ⟨opening, closing, before, behind, hopening, hclosing, hbefore, hbehind, hstop', rfl,
              by simp [htail]⟩
          · cases h
  · intro h
    obtain ⟨opening, closing, before, behind, hopening, hclosing, hbefore, hbehind, hstop, rfl, rfl⟩ := h
    have hcolon : Stops isBlank (':' :: (behind ++ rest)) := stops_cons_iff.mpr (by decide)
    have hafter : after? key (key ++ closing :: (before ++ ':' :: (behind ++ rest))) =
        some (closing :: (before ++ ':' :: (behind ++ rest))) := after?_eq_some_iff.mpr rfl
    simp [written, afterKey?, hopening, hclosing, hafter, dropWhile_append hbefore hcolon,
      takeWhile_append hbefore hcolon, dropWhile_append hbehind hstop, takeWhile_append hbehind hstop,
      guard]

/-- A key begins with a quote. -/
theorem afterKey?_head {key text : List Char} {found} (h : afterKey? key text = some found) :
    ∃ opening tail, text = opening :: tail ∧ isQuote opening = true := by
  obtain ⟨lead, rest⟩ := found
  obtain ⟨opening, closing, before, behind, hopening, -, -, -, -, rfl, rfl⟩ :=
    afterKey?_eq_some_iff.mp h
  exact ⟨opening, _, rfl, hopening⟩

theorem afterKey?_nil (key : List Char) : afterKey? key [] = none := rfl

/-- A key of some length has its closing quote there. -/
theorem afterKey?_getElem {key text : List Char} {found} (h : afterKey? key text = some found) :
    ∃ c ∈ text[key.length + 1]?, isQuote c = true := by
  obtain ⟨lead, rest⟩ := found
  obtain ⟨opening, closing, before, behind, -, hclosing, -, -, -, rfl, rfl⟩ := afterKey?_eq_some_iff.mp h
  have hdrop : written opening key closing before behind ++ rest =
      (opening :: key) ++ closing :: (before ++ ':' :: (behind ++ rest)) := by simp [written]
  refine ⟨closing, ?_, hclosing⟩
  rw [hdrop, List.getElem?_append_right (by simp)]
  simp

/-- What leads to a value is longer than its key in quotes. -/
theorem afterKey?_length {key text lead rest : List Char} (h : afterKey? key text = some (lead, rest)) :
    key.length + 3 ≤ lead.length := by
  obtain ⟨opening, closing, before, behind, -, -, -, -, -, rfl, -⟩ := afterKey?_eq_some_iff.mp h
  simp only [written, List.length_append, List.length_cons]
  omega

/-- **The value of a key begins no later than the closing quote of the same key further on.** -/
theorem afterKey?_overlap {key text lead rest : List Char} {found} {j : Nat}
    (h : afterKey? key text = some (lead, rest)) (hj : 0 < j) (h' : afterKey? key (text.drop j) = some found) :
    lead.length ≤ j + key.length + 1 := by
  obtain ⟨c, hc, hquote⟩ := afterKey?_getElem h'
  obtain ⟨opening, closing, before, behind, -, -, hbefore, hbehind, -, rfl, rfl⟩ := afterKey?_eq_some_iff.mp h
  by_contra hlt
  rw [List.getElem?_drop, Option.mem_def, List.getElem?_append_left (by omega)] at hc
  have hlead : written opening key closing before behind =
      (opening :: key ++ [closing]) ++ (before ++ ':' :: behind) := by simp [written]
  rw [hlead, List.getElem?_append_right (by simp; omega)] at hc
  rcases List.mem_append.mp (List.mem_of_getElem? hc) with hmem | hmem
  · have := isQuote_of_isBlank (hbefore c hmem)
    rw [hquote] at this
    cases this
  rcases List.mem_cons.mp hmem with rfl | hmem
  · cases hquote
  · have := isQuote_of_isBlank (hbehind c hmem)
    rw [hquote] at this
    cases this

/-- A key whose value begins in the front of a text is read alike, whatever stands behind that. -/
theorem afterKey?_front {key front tail lead rest : List Char} (h : afterKey? key (front ++ tail) = some (lead, rest))
    (hlt : lead.length < front.length) :
    ∃ c z, front = lead ++ c :: z ∧ rest = c :: z ++ tail ∧
      ∀ other, afterKey? key (front ++ other) = some (lead, c :: z ++ other) := by
  obtain ⟨opening, closing, before, behind, hopening, hclosing, hbefore, hbehind, hstop, hlead, htext⟩ :=
    afterKey?_eq_some_iff.mp h
  rcases List.append_eq_append_iff.mp htext with ⟨z, rfl, -⟩ | ⟨z, rfl, hrest⟩
  · rw [List.length_append] at hlt
    omega
  · cases z with
    | nil => simp at hlt
    | cons c z =>
      subst hrest
      exact ⟨c, z, rfl, rfl, fun other => afterKey?_eq_some_iff.mpr ⟨opening, closing, before, behind, hopening,
        hclosing, hbefore, hbehind, stops_cons_iff.mpr (stops_cons_iff.mp hstop), hlead, List.append_assoc _ _ _⟩⟩

/-- No key begins right behind the opening quote of the same key. -/
theorem afterKey?_tail {key text : List Char} {found} (h : afterKey? key text = some found) :
    afterKey? key text.tail = none := by
  by_contra hne
  obtain ⟨found', h'⟩ := Option.ne_none_iff_exists'.mp hne
  obtain ⟨lead, rest⟩ := found
  have hlong := afterKey?_length h
  have := afterKey?_overlap h Nat.zero_lt_one (by rwa [List.drop_one])
  omega

/-! ### Reading a value -/

theorem quoted?_eq_some_iff {quote : Char} {text : List Char} {slot : Slot} :
    quoted? quote text = some slot ↔ ∃ inner rest, (∀ c ∈ inner, (c != quote && c != '\n') = true) ∧
      text = inner ++ quote :: rest ∧ slot = ⟨[quote], inner, [quote]⟩ := by
  constructor
  · intro h
    obtain ⟨inner, rest, rfl, hinner, hstop⟩ := exists_cut (fun c => c != quote && c != '\n') text
    simp only [quoted?, dropWhile_append hinner hstop, takeWhile_append hinner hstop] at h
    cases rest with
    | nil => cases h
    | cons c rest =>
      simp only at h
      split at h
      · rename_i hc
        cases h
        exact ⟨inner, rest, hinner, by rw [hc], rfl⟩
      · cases h
  · intro h
    obtain ⟨inner, rest, hinner, rfl, rfl⟩ := h
    have hstop : Stops (fun c => c != quote && c != '\n') (quote :: rest) := stops_cons_iff.mpr (by simp)
    simp only [quoted?, dropWhile_append hinner hstop, takeWhile_append hinner hstop, if_true]

theorem isBare_of_isQuote {c : Char} (h : isQuote c = true) : isBare c = false := by
  rcases isQuote_iff.mp h with rfl | rfl <;> decide

theorem scalar?_of_isQuote {quote : Char} (h : isQuote quote = true) (tail : List Char) :
    scalar? (quote :: tail) = quoted? quote tail := by
  rcases isQuote_iff.mp h with rfl | rfl <;> rfl

theorem scalar?_of_stops {text : List Char} (h : Stops isQuote text) :
    scalar? text = if (text.takeWhile isBare).isEmpty then none else some ⟨[], text.takeWhile isBare, []⟩ := by
  cases text with
  | nil => rfl
  | cons c tail =>
    have hc := stops_cons_iff.mp h
    rw [scalar?]
    · rintro tail' ⟨rfl, rfl⟩
      revert hc
      decide
    · rintro tail' ⟨rfl, rfl⟩
      revert hc
      decide

/-- A value is quoted when it begins with a quote, and bare otherwise. -/
theorem scalar?_eq_some_iff {text : List Char} {slot : Slot} :
    scalar? text = some slot ↔
      (∃ quote tail, isQuote quote = true ∧ text = quote :: tail ∧ quoted? quote tail = some slot) ∨
      ∃ bare rest, bare ≠ [] ∧ (∀ c ∈ bare, isBare c = true) ∧ Stops isBare rest ∧
        text = bare ++ rest ∧ slot = ⟨[], bare, []⟩ := by
  constructor
  · intro h
    by_cases hquote : Stops isQuote text
    · right
      rw [scalar?_of_stops hquote] at h
      obtain ⟨bare, rest, rfl, hbare, hstop⟩ := exists_cut isBare text
      rw [takeWhile_append hbare hstop] at h
      split at h
      · cases h
      · rename_i hne
        cases h
        exact ⟨bare, rest, by simpa using hne, hbare, hstop, rfl, rfl⟩
    · left
      cases text with
      | nil => exact absurd stops_nil hquote
      | cons quote tail =>
        have hquote : isQuote quote = true := by simpa [stops_cons_iff] using hquote
        exact ⟨quote, tail, hquote, rfl, by rwa [scalar?_of_isQuote hquote] at h⟩
  · intro h
    rcases h with ⟨quote, tail, hquote, rfl, h⟩ | ⟨bare, rest, hne, hbare, hstop, rfl, rfl⟩
    · rwa [scalar?_of_isQuote hquote]
    · have hquote : Stops isQuote (bare ++ rest) := by
        obtain ⟨c, bare, rfl⟩ := List.exists_cons_of_ne_nil hne
        refine stops_cons_iff.mpr ?_
        by_contra hc
        have := isBare_of_isQuote (by simpa using hc)
        rw [hbare c List.mem_cons_self] at this
        cases this
      rw [scalar?_of_stops hquote, takeWhile_append hbare hstop, if_neg (by simpa using hne)]

/-- Where a bare character stands, a value begins. -/
theorem scalar?_ne_none {c : Char} (h : isBare c = true) (tail : List Char) : scalar? (c :: tail) ≠ none := by
  obtain ⟨bare, rest, rfl, hbare, hstop⟩ := exists_cut isBare tail
  refine Option.ne_none_iff_exists'.mpr ⟨⟨[], c :: bare, []⟩, scalar?_eq_some_iff.mpr (.inr ?_)⟩
  refine ⟨c :: bare, rest, by simp, fun d hd => ?_, hstop, rfl, rfl⟩
  rcases List.mem_cons.mp hd with rfl | hd
  · exact h
  · exact hbare d hd

/-- What a value takes from the text is its lead, the value, and what closes it. -/
theorem scalar?_text {text : List Char} {slot : Slot} (h : scalar? text = some slot) :
    ∃ rest, text = slot.lead ++ slot.value ++ slot.close ++ rest := by
  rcases scalar?_eq_some_iff.mp h with ⟨quote, tail, -, rfl, hslot⟩ | ⟨bare, rest, -, -, -, rfl, rfl⟩
  · obtain ⟨inner, rest, -, rfl, rfl⟩ := quoted?_eq_some_iff.mp hslot
    exact ⟨rest, by simp⟩
  · exact ⟨rest, by simp⟩

/-! ### Keys with values and keys with objects -/

theorem leaf?_eq_some_iff {key text : List Char} {slot : Slot} :
    leaf? key text = some slot ↔ ∃ lead rest inner, afterKey? key text = some (lead, rest) ∧
      scalar? rest = some inner ∧ slot = inner.behind lead := by
  simp only [leaf?, Option.bind_eq_bind, Option.bind_eq_some_iff, Option.pure_def, Option.some.injEq,
    Prod.exists]
  constructor
  · intro h
    obtain ⟨lead, rest, h, inner, hinner, rfl⟩ := h
    exact ⟨lead, rest, inner, h, hinner, rfl⟩
  · intro h
    obtain ⟨lead, rest, inner, h, hinner, rfl⟩ := h
    exact ⟨lead, rest, h, inner, hinner, rfl⟩

/-- The value of a key that is read. -/
theorem leaf?_of_afterKey? {key text lead rest : List Char} (h : afterKey? key text = some (lead, rest)) :
    leaf? key text = (scalar? rest).map fun slot => slot.behind lead := by
  simp only [leaf?, h, Option.bind_eq_bind, Option.bind_some]
  cases scalar? rest <;> rfl

theorem object?_eq_some_iff {key text : List Char} {n : Nat} :
    object? key text = some n ↔ ∃ lead rest, afterKey? key text = some (lead, '\x7b' :: rest) ∧
      n = lead.length := by
  simp only [object?, Option.bind_eq_bind, Option.bind_eq_some_iff]
  constructor
  · intro h
    obtain ⟨⟨lead, rest⟩, h, hn⟩ := h
    split at hn
    · rename_i lead' tail heq
      cases heq
      cases hn
      exact ⟨_, _, h, rfl⟩
    · cases hn
  · intro h
    obtain ⟨lead, rest, h, rfl⟩ := h
    exact ⟨_, h, rfl⟩

theorem object?_lt_length {key text : List Char} {k : Nat} (h : object? key text = some k) :
    k < text.length := by
  obtain ⟨lead, rest, hkey, rfl⟩ := object?_eq_some_iff.mp h
  obtain ⟨-, -, -, -, -, -, -, -, -, -, rfl⟩ := afterKey?_eq_some_iff.mp hkey
  simp

theorem object?_front {key front tail : List Char} {lead : Nat} (h : object? key (front ++ tail) = some lead)
    (hlt : lead < front.length) (other : List Char) : object? key (front ++ other) = some lead := by
  obtain ⟨lead, rest, hkey, rfl⟩ := object?_eq_some_iff.mp h
  obtain ⟨c, z, -, hrest, hsame⟩ := afterKey?_front hkey hlt
  obtain ⟨rfl, -⟩ := List.cons.inj hrest
  exact object?_eq_some_iff.mpr ⟨lead, _, hsame other, rfl⟩

/-- The object of a key opens in front of the object of the same key further on. -/
theorem object?_overlap {key text : List Char} {m n lead lead' : Nat} (hm : m < n)
    (h : object? key (text.drop m) = some lead) (h' : object? key (text.drop n) = some lead') :
    m + lead < n + lead' := by
  obtain ⟨front, rest, hkey, rfl⟩ := object?_eq_some_iff.mp h
  obtain ⟨front', rest', hkey', rfl⟩ := object?_eq_some_iff.mp h'
  have hdrop : (text.drop m).drop (n - m) = text.drop n := by rw [List.drop_drop, Nat.add_sub_cancel' hm.le]
  have := afterKey?_overlap hkey (Nat.sub_pos_of_lt hm) (by rw [hdrop]; exact hkey')
  have := afterKey?_length hkey'
  omega

theorem leaf?_eq_none {key text : List Char} (h : afterKey? key text = none) : leaf? key text = none := by
  simp [leaf?, h]

theorem object?_eq_none {key text : List Char} (h : afterKey? key text = none) :
    object? key text = none := by
  simp [object?, h]

theorem leaf?_text {key text : List Char} {slot : Slot} (h : leaf? key text = some slot) :
    ∃ rest, text = slot.lead ++ slot.value ++ slot.close ++ rest := by
  obtain ⟨lead, behind, inner, hkey, hinner, rfl⟩ := leaf?_eq_some_iff.mp h
  obtain ⟨-, -, -, -, -, -, -, -, -, -, rfl⟩ := afterKey?_eq_some_iff.mp hkey
  obtain ⟨rest, rfl⟩ := scalar?_text hinner
  exact ⟨rest, by simp [Slot.behind]⟩

/-- In front of a value stands a quote, a blank or the colon. -/
theorem leaf?_lead {key text : List Char} {slot : Slot} (h : leaf? key text = some slot) :
    ∃ c, slot.lead.getLast? = some c ∧ (isQuote c = true ∨ isBlank c = true ∨ c = ':') := by
  obtain ⟨lead, behind, inner, hkey, hinner, rfl⟩ := leaf?_eq_some_iff.mp h
  obtain ⟨opening, closing, before, blanks, -, -, -, hblanks, -, rfl, -⟩ := afterKey?_eq_some_iff.mp hkey
  rcases scalar?_eq_some_iff.mp hinner with ⟨quote, tail, hquote, -, hslot⟩ | ⟨bare, rest, -, -, -, -, rfl⟩
  · obtain ⟨inner, rest, -, -, rfl⟩ := quoted?_eq_some_iff.mp hslot
    exact ⟨quote, by simp [Slot.behind], .inl hquote⟩
  · cases hlast : blanks.getLast? with
    | none =>
      rw [List.getLast?_eq_none_iff] at hlast
      subst hlast
      exact ⟨':', by simp [Slot.behind, written, List.getLast?_append, List.getLast?_cons], .inr (.inr rfl)⟩
    | some c =>
      refine ⟨c, ?_, .inr (.inl (hblanks c (List.mem_of_getLast? hlast)))⟩
      simp [Slot.behind, written, List.getLast?_append, List.getLast?_cons, hlast]

/-! ### The lookup by places -/

/-- The value of a key that stands at a place, `depth` objects deep. -/
def leafAt (text : List Char) (outline : Outline) (key : List Char) (depth n : Nat) : Option Occurrence :=
  match leaf? key (text.drop n) with
  | none => none
  | some slot => if isKey outline n depth then some (slot.occurrence n) else none

/-- What the object of a key that stands at a place, `depth` objects deep, holds for the rest of
the path. Only what is in front of `stop` is looked at for the key. -/
def parentAt (text : List Char) (outline : Outline) (leaf key : List Char) (keys : List (List Char))
    (depth stop n : Nat) : Option Occurrence :=
  match object? key ((text.take stop).drop n) with
  | none => none
  | some lead =>
    if isKey outline n depth && !outline.inLiteral (n + lead) then
      findIn text outline leaf keys (depth + 1)
        ⟨n + lead + 1, (outline.closingBrace? (n + lead)).getD text.length⟩
    else none

theorem leafAt_eq_some_iff {text : List Char} {outline : Outline} {key : List Char} {depth n : Nat}
    {found : Occurrence} :
    leafAt text outline key depth n = some found ↔
      ∃ slot, leaf? key (text.drop n) = some slot ∧ isKey outline n depth = true ∧
        found = slot.occurrence n := by
  simp only [leafAt]
  constructor
  · intro h
    split at h
    · cases h
    · rename_i slot hslot
      split at h
      · rename_i hkey
        cases h
        exact ⟨slot, hslot, hkey, rfl⟩
      · cases h
  · intro h
    obtain ⟨slot, hslot, hkey, rfl⟩ := h
    simp only [hslot, hkey, if_true]

/-- What is read at the place of a key, and at any other place. -/
theorem leafAt_of_isKey {text : List Char} {outline : Outline} {key : List Char} {depth n : Nat}
    (h : isKey outline n depth = true) :
    leafAt text outline key depth n = (leaf? key (text.drop n)).map fun slot => slot.occurrence n := by
  unfold leafAt
  cases leaf? key (text.drop n) with
  | none => rfl
  | some slot => exact if_pos h

theorem leafAt_of_not_isKey {text : List Char} {outline : Outline} {key : List Char} {depth n : Nat}
    (h : isKey outline n depth = false) : leafAt text outline key depth n = none := by
  unfold leafAt
  cases leaf? key (text.drop n) with
  | none => rfl
  | some slot => exact if_neg (by simp [h])

/-- The stretch an object takes that opens at an offset, without its braces. -/
def objectScope (text : List Char) (outline : Outline) (opening : Nat) : Span :=
  ⟨opening + 1, (outline.closingBrace? opening).getD text.length⟩

theorem parentAt_eq_some_iff {text : List Char} {outline : Outline} {leaf key : List Char}
    {keys : List (List Char)} {depth stop n : Nat} {found : Occurrence} :
    parentAt text outline leaf key keys depth stop n = some found ↔
      ∃ lead, object? key ((text.take stop).drop n) = some lead ∧ isKey outline n depth = true ∧
        outline.inLiteral (n + lead) = false ∧
        findIn text outline leaf keys (depth + 1) (objectScope text outline (n + lead)) = some found := by
  simp only [parentAt]
  constructor
  · intro h
    split at h
    · cases h
    · rename_i lead hlead
      split at h
      · rename_i hkey
        simp only [Bool.and_eq_true, Bool.not_eq_true'] at hkey
        exact ⟨lead, hlead, hkey.1, hkey.2, h⟩
      · cases h
  · intro h
    obtain ⟨lead, hlead, hkey, hliteral, h⟩ := h
    simp only [hlead, hkey, hliteral, Bool.not_false, Bool.and_self, if_true]
    exact h

/-- Looking for a key with a scalar at a place. -/
def leafAttempt (outline : Outline) (key : List Char) (depth : Nat) (cursor : Cursor) :
    Attempt Occurrence :=
  match leaf? key cursor.rest with
  | none => .pass 0
  | some slot =>
    if isKey outline cursor.offset depth then .found (slot.occurrence cursor.offset) else .pass 1

/-- Looking for a key with an object at a place, and for the rest of the path in the object. -/
def parentAttempt (text : List Char) (outline : Outline) (leaf key : List Char)
    (keys : List (List Char)) (depth : Nat) (cursor : Cursor) : Attempt Occurrence :=
  match object? key cursor.rest with
  | none => .pass 0
  | some lead =>
    let opening := cursor.offset + lead
    if isKey outline cursor.offset depth && !outline.inLiteral opening then
      let closing := (outline.closingBrace? opening).getD text.length
      match findIn text outline leaf keys (depth + 1) ⟨opening + 1, closing⟩ with
      | some occurrence => .found occurrence
      | none => .pass 1
    else .pass 1

/-- What a key with an object comes to. -/
theorem parentAttempt_of_object? {text : List Char} {outline : Outline} {leaf key : List Char}
    {keys : List (List Char)} {depth lead : Nat} {cursor : Cursor} (h : object? key cursor.rest = some lead) :
    parentAttempt text outline leaf key keys depth cursor =
      if isKey outline cursor.offset depth && !outline.inLiteral (cursor.offset + lead) then
        (findIn text outline leaf keys (depth + 1) (objectScope text outline (cursor.offset + lead))).elim
          (.pass 1) .found
      else .pass 1 := by
  simp only [parentAttempt, h]
  split
  · show _ = Option.elim (findIn text outline leaf keys (depth + 1)
      ⟨cursor.offset + lead + 1, (outline.closingBrace? (cursor.offset + lead)).getD text.length⟩) _ _
    split
    · rename_i hfound
      rw [hfound]
      rfl
    · rename_i hnone
      rw [hnone]
      rfl
  · rfl

theorem leafAttempt_pass {outline : Outline} {key : List Char} {depth skip : Nat} {cursor : Cursor}
    (h : leafAttempt outline key depth cursor = .pass skip) :
    skip = 0 ∨ skip = 1 ∧ afterKey? key cursor.rest ≠ none := by
  simp only [leafAttempt] at h
  split at h
  · cases h
    exact .inl rfl
  · rename_i slot hslot
    split at h
    · cases h
    · cases h
      refine .inr ⟨rfl, fun hnone => ?_⟩
      rw [leaf?_eq_none hnone] at hslot
      cases hslot

theorem parentAttempt_pass {text : List Char} {outline : Outline} {leaf key : List Char}
    {keys : List (List Char)} {depth skip : Nat} {cursor : Cursor}
    (h : parentAttempt text outline leaf key keys depth cursor = .pass skip) :
    skip = 0 ∨ skip = 1 ∧ afterKey? key cursor.rest ≠ none := by
  simp only [parentAttempt] at h
  split at h
  · cases h
    exact .inl rfl
  · rename_i lead hlead
    have hone : skip = 1 := by
      split at h
      · split at h <;> cases h
        rfl
      · cases h
        rfl
    refine .inr ⟨hone, fun hnone => ?_⟩
    rw [object?_eq_none hnone] at hlead
    cases hlead

theorem answer?_leafAttempt (text : List Char) (outline : Outline) (key : List Char) (depth n : Nat) :
    (leafAttempt outline key depth (Cursor.at text n)).answer? = leafAt text outline key depth n := by
  show (match leaf? key (text.drop n) with
    | none => .pass 0
    | some slot => if isKey outline n depth then .found (slot.occurrence n) else .pass 1 :
      Attempt Occurrence).answer? = _
  unfold leafAt
  split
  · rfl
  · split <;> rfl

theorem answer?_parentAttempt (text : List Char) (outline : Outline) (leaf key : List Char)
    (keys : List (List Char)) (depth stop n : Nat) :
    (parentAttempt text outline leaf key keys depth (Cursor.at (text.take stop) n)).answer? =
      parentAt text outline leaf key keys depth stop n := by
  show (match object? key ((text.take stop).drop n) with
    | none => .pass 0
    | some lead =>
      if isKey outline n depth && !outline.inLiteral (n + lead) then
        match findIn text outline leaf keys (depth + 1)
          ⟨n + lead + 1, (outline.closingBrace? (n + lead)).getD text.length⟩ with
        | some occurrence => .found occurrence
        | none => .pass 1
      else .pass 1 : Attempt Occurrence).answer? = _
  unfold parentAt
  split
  · rfl
  · split
    · split
      · rename_i h
        exact h.symm
      · rename_i h
        exact h.symm
    · rfl

/-- An attempt loses nothing that passes over a place only behind the front of a key. -/
theorem thorough_of_pass {attempt : Cursor → Attempt Occurrence} {key text : List Char}
    (hnone : ∀ cursor, afterKey? key cursor.rest = none → (attempt cursor).answer? = none)
    (hpass : ∀ cursor skip, attempt cursor = .pass skip →
      skip = 0 ∨ skip = 1 ∧ afterKey? key cursor.rest ≠ none) : Thorough attempt text := by
  constructor
  · intro cursor hrest
    exact hnone cursor (by rw [hrest, afterKey?_nil])
  · intro n skip m hskip hlt hle
    rcases hpass _ _ hskip with rfl | ⟨rfl, hkey⟩
    · omega
    · obtain rfl : m = n + 1 := by omega
      obtain ⟨found, hfound⟩ := Option.ne_none_iff_exists'.mp hkey
      have htail := afterKey?_tail hfound
      simp only [Cursor.at, List.tail_drop] at htail
      exact hnone _ htail

/-- **The last key of a path stands at the first place where it has a scalar.** -/
theorem findIn_leaf (text : List Char) (outline : Outline) (leaf : List Char) (depth : Nat) (scope : Span) :
    findIn text outline leaf [] depth scope =
      firstAnswer (leafAt (text.take scope.stop) outline leaf depth) scope.start scope.stop := by
  have hthorough : Thorough (leafAttempt outline leaf depth) (text.take scope.stop) := by
    refine thorough_of_pass (fun cursor hnone => ?_) fun cursor skip h => leafAttempt_pass h
    simp only [leafAttempt, leaf?_eq_none hnone, Attempt.answer?_pass]
  refine (search_take_eq_firstAnswer hthorough scope.start).trans ?_
  exact firstAnswer_congr fun n _ _ => answer?_leafAttempt _ outline leaf depth n

/-- **An earlier key of a path stands at the first place whose object holds the rest.** -/
theorem findIn_parent (text : List Char) (outline : Outline) (leaf key : List Char)
    (keys : List (List Char)) (depth : Nat) (scope : Span) :
    findIn text outline leaf (key :: keys) depth scope =
      firstAnswer (parentAt text outline leaf key keys depth scope.stop) scope.start scope.stop := by
  have hthorough : Thorough (parentAttempt text outline leaf key keys depth) (text.take scope.stop) := by
    refine thorough_of_pass (fun cursor hnone => ?_) fun cursor skip h => parentAttempt_pass h
    simp only [parentAttempt, object?_eq_none hnone, Attempt.answer?_pass]
  refine (search_take_eq_firstAnswer hthorough scope.start).trans ?_
  exact firstAnswer_congr fun n _ _ => answer?_parentAttempt text outline leaf key keys depth _ n

/-- Nothing is found in front of where the search begins, and the last key of the path leads to it. It stands where a
literal begins. -/
theorem leaf_of_findIn {text : List Char} {outline : Outline} {leaf : List Char}
    {keys : List (List Char)} {depth : Nat} {scope : Span} {found : Occurrence}
    (h : findIn text outline leaf keys depth scope = some found) :
    ∃ n stop slot, scope.start ≤ n ∧ outline.startsLiteral n = true ∧
      leaf? leaf ((text.take stop).drop n) = some slot ∧ found = slot.occurrence n := by
  induction keys generalizing depth scope with
  | nil =>
    rw [findIn_leaf, firstAnswer_eq_some_iff] at h
    obtain ⟨n, hs, -, hn, -⟩ := h
    obtain ⟨slot, hslot, hkey, rfl⟩ := leafAt_eq_some_iff.mp hn
    exact ⟨n, _, slot, hs, (Bool.and_eq_true_iff.mp hkey).1, hslot, rfl⟩
  | cons key keys ih =>
    rw [findIn_parent, firstAnswer_eq_some_iff] at h
    obtain ⟨n, hs, -, hn, -⟩ := h
    obtain ⟨lead, -, -, -, hinner⟩ := parentAt_eq_some_iff.mp hn
    obtain ⟨m, stop, slot, hm, hstart, hslot, rfl⟩ := ih hinner
    simp only [objectScope] at hm
    exact ⟨m, stop, slot, by omega, hstart, hslot, rfl⟩

/-- **What a lookup has read** where it found something: the last key of the path between quotes, at the beginning of a
literal, its colon, and a scalar behind it. -/
theorem exists_reading_of_find? {text : List Char} {path : KeyPath} {found : Occurrence}
    (h : find? text path = some found) :
    ∃ opening closing before behind rest more inner, isQuote opening = true ∧ isQuote closing = true ∧
      (∀ c ∈ before, isBlank c = true) ∧ (∀ c ∈ behind, isBlank c = true) ∧ Stops isBlank rest ∧
      scalar? rest = some inner ∧ (Outline.scan text).startsLiteral found.full.start = true ∧
      text.drop found.full.start = written opening path.leaf.toList closing before behind ++ (rest ++ more) ∧
      found = (inner.behind (written opening path.leaf.toList closing before behind)).occurrence found.full.start := by
  obtain ⟨n, stop, slot, -, hstart, hslot, rfl⟩ := leaf_of_findIn h
  obtain ⟨lead, rest, inner, hkey, hinner, rfl⟩ := leaf?_eq_some_iff.mp hslot
  obtain ⟨opening, closing, before, behind, hopening, hclosing, hbefore, hbehind, hstops, rfl, hread⟩ :=
    afterKey?_eq_some_iff.mp hkey
  have hle : n ≤ (text.take stop).length := by
    by_contra hlt
    rw [List.drop_eq_nil_of_le (by omega)] at hread
    simp [written] at hread
  refine ⟨opening, closing, before, behind, rest, text.drop stop, inner, hopening, hclosing, hbefore, hbehind, hstops,
    hinner, hstart, ?_, rfl⟩
  show text.drop n = _
  conv_lhs => rw [← List.take_append_drop stop text, List.drop_append_of_le_length hle, hread]
  rw [List.append_assoc]

theorem start_le_of_findIn {text : List Char} {outline : Outline} {leaf : List Char}
    {keys : List (List Char)} {depth : Nat} {scope : Span} {found : Occurrence}
    (h : findIn text outline leaf keys depth scope = some found) : scope.start ≤ found.value.start := by
  obtain ⟨n, stop, slot, hn, -, -, rfl⟩ := leaf_of_findIn h
  show scope.start ≤ n + slot.lead.length
  omega

end ManifestBump.Json

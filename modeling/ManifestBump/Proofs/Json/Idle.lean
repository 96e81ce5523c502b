import ManifestBump.Manifest.Basic
import ManifestBump.Proofs.Json.Key
import ManifestBump.Proofs.Json.Tree

/-! Places in the text of a tree where no key stands.

A key that is looked for is met only where a string begins, and a member's key is read there up to its colon
(`afterKey?_lead`). Strings in values have no colon behind them, and objects in values lie deeper, so in a value
no key of the right depth begins (`Value.idleOn`). -/
namespace ManifestBump.Json
open Text

/-- A text without quotes. -/
def Unquoted (text : List Char) : Prop := ∀ c ∈ text, isQuote c = false

/-- Behind space there is a comma, a closing bracket, or nothing more. -/
def Ends (text : List Char) : Prop := ∀ c ∈ (text.dropWhile isBlank).head?, c = ',' ∨ c = ']' ∨ c = '\x7d'

/-! ### Ends of values -/

theorem ends_nil : Ends [] := by simp [Ends]

theorem ends_append (space : Space) {rest : List Char} (h : Ends rest) : Ends (space.text ++ rest) := by
  rwa [Ends, List.dropWhile_append_of_pos space.isBlank]

theorem ends_cons {c : Char} (hc : c = ',' ∨ c = ']' ∨ c = '\x7d') (rest : List Char) : Ends (c :: rest) := by
  have hblank : isBlank c = false := by
    rcases hc with rfl | rfl | rfl <;> decide
  rw [Ends, List.dropWhile_cons_of_neg (by simp [hblank])]
  rintro d ⟨⟩
  exact hc

theorem Items.ends_comma (items : Items) {rest : List Char} (h : items = .nil → Ends rest) :
    Ends (items.comma ++ (items.render ++ rest)) := by
  cases items with
  | nil => exact h rfl
  | cons => exact ends_cons (.inl rfl) _

theorem Members.ends_comma (members : Members) {rest : List Char} (h : members = .nil → Ends rest) :
    Ends (members.comma ++ (members.render ++ rest)) := by
  cases members with
  | nil => exact h rfl
  | cons => exact ends_cons (.inl rfl) _

/-- No number goes on behind its end. -/
theorem Ends.stops {text : List Char} (h : Ends text) : Stops isBare text := by
  cases text with
  | nil => exact stops_nil
  | cons c text =>
    refine stops_cons_iff.mpr ?_
    by_cases hblank : isBlank c = true
    · simp [isBare, hblank]
    · rw [Ends, List.dropWhile_cons_of_neg hblank] at h
      rcases h c rfl with rfl | rfl | rfl <;> decide

/-! ### Keys at the beginning of strings -/

/-- A key that is read where a string begins is the string, and a colon is behind it. -/
theorem afterKey?_quoted_iff {name text rest lead behind : List Char} (hname : Unquoted name)
    (htext : Unquoted text) :
    afterKey? name ('"' :: text ++ ['"'] ++ rest) = some (lead, behind) ↔
      name = text ∧ ∃ before gap, (∀ c ∈ before, isBlank c = true) ∧ (∀ c ∈ gap, isBlank c = true) ∧
        Stops isBlank behind ∧ rest = before ++ ':' :: (gap ++ behind) ∧ lead = written '"' text '"' before gap := by
  rw [afterKey?_eq_some_iff]
  constructor
  · intro h
    obtain ⟨opening, closing, before, gap, -, hclosing, hbefore, hgap, hstops, rfl, heq⟩ := h
    have hplain : ∀ {text : List Char}, Unquoted text → ∀ c ∈ text, (!isQuote c) = true :=
      fun htext c hc => by rw [htext c hc]; rfl
    have hopening := congrArg List.head? heq
    obtain rfl : opening = '"' := by simpa [written] using hopening.symm
    have hsplit : text ++ '"' :: rest = name ++ closing :: (before ++ ':' :: (gap ++ behind)) := by
      have := congrArg List.tail heq
      simpa [written] using this
    have hdouble : Stops (fun c => !isQuote c) ('"' :: rest) := stops_cons_iff.mpr (by decide)
    have hstop : Stops (fun c => !isQuote c) (closing :: (before ++ ':' :: (gap ++ behind))) :=
      stops_cons_iff.mpr (by simp [hclosing])
    obtain ⟨rfl, hbehind⟩ := cut_unique (hplain htext) hdouble (hplain hname) hstop hsplit
    obtain ⟨rfl, rfl⟩ := List.cons.inj hbehind
    exact ⟨rfl, before, gap, hbefore, hgap, hstops, rfl, rfl⟩
  · intro h
    obtain ⟨rfl, before, gap, hbefore, hgap, hstops, rfl, rfl⟩ := h
    exact ⟨'"', '"', before, gap, by decide, by decide, hbefore, hgap, hstops, rfl, by simp [written]⟩

/-- A string at the end of a value is no key. -/
theorem afterKey?_of_ends {name text : List Char} (hname : Unquoted name) (htext : Unquoted text) {rest : List Char}
    (h : Ends rest) : afterKey? name ('"' :: text ++ ['"'] ++ rest) = none := by
  by_contra hne
  obtain ⟨⟨lead, behind⟩, hfound⟩ := Option.ne_none_iff_exists'.mp hne
  obtain ⟨-, before, gap, hbefore, -, -, rfl, -⟩ := (afterKey?_quoted_iff hname htext).mp hfound
  have hcolon : Stops isBlank (':' :: (gap ++ behind)) := stops_cons_iff.mpr (by decide)
  rw [Ends, dropWhile_append hbefore hcolon] at h
  rcases h ':' rfl with h | h | h <;> revert h <;> decide

theorem Value.stops_isBlank (value : Value) (rest : List Char) : Stops isBlank (value.render ++ rest) := by
  cases value with
  | string token => exact stops_cons_iff.mpr (by decide)
  | word text =>
    obtain ⟨c, word, htext⟩ := List.exists_cons_of_ne_nil text.ne_nil
    show Stops isBlank (text.text ++ rest)
    rw [htext]
    refine stops_cons_iff.mpr (isBlank_of_isVersionChar (text.isVersionChar c ?_))
    rw [htext]
    exact List.mem_cons_self
  | array space items => exact stops_cons_iff.mpr (by decide)
  | object space members => exact stops_cons_iff.mpr (by decide)

theorem Token.lead_eq (key : Token) (gap gap' : Space) :
    key.lead gap gap' = written '"' key.text '"' gap.text gap'.text := by
  simp [lead, render, written]

/-- A member is read up to its value. -/
theorem afterKey?_lead (key : Token) (gap gap' : Space) (value : Value) (rest : List Char) :
    afterKey? key.text (key.lead gap gap' ++ (value.render ++ rest)) =
      some (key.lead gap gap', value.render ++ rest) := by
  refine afterKey?_eq_some_iff.mpr ⟨'"', '"', gap.text, gap'.text, by decide, by decide, gap.isBlank, gap'.isBlank,
    value.stops_isBlank rest, key.lead_eq gap gap', rfl⟩

theorem afterKey?_lead_of_ne {name : List Char} (hname : Unquoted name) {key : Token} (hne : key.text ≠ name)
    (gap gap' : Space) (rest : List Char) : afterKey? name (key.lead gap gap' ++ rest) = none := by
  by_contra hsome
  obtain ⟨⟨lead, behind⟩, hfound⟩ := Option.ne_none_iff_exists'.mp hsome
  rw [Token.lead, List.append_assoc] at hfound
  exact hne ((afterKey?_quoted_iff hname key.isQuote).mp hfound).1.symm

/-- The scalar that is read at a value. -/
theorem scalar?_render (value : Value) {rest : List Char} (h : Ends rest) (offset : Nat) :
    (scalar? (value.render ++ rest)).map (fun slot => (slot.occurrence offset).value) = value.scalar? offset := by
  cases value with
  | string token =>
    have hinner : ∀ c ∈ token.text, (c != '"' && c != '\n') = true := by
      intro c hc
      have := token.isInner c hc
      simp only [Outline.isInner, Bool.and_eq_true] at this
      simp [this]
    have hquoted : quoted? '"' (token.text ++ '"' :: rest) = some ⟨['"'], token.text, ['"']⟩ :=
      quoted?_eq_some_iff.mpr ⟨token.text, rest, hinner, rfl, rfl⟩
    show (scalar? ('"' :: (token.text ++ ['"']) ++ rest)).map _ = _
    rw [List.cons_append, List.append_assoc, List.singleton_append, scalar?_of_isQuote (by decide), hquoted]
    rfl
  | word text =>
    have hscalar : scalar? (text.text ++ rest) = some ⟨[], text.text, []⟩ :=
      scalar?_eq_some_iff.mpr (.inr ⟨text.text, rest, text.ne_nil, text.isBare, h.stops, rfl, rfl⟩)
    show (scalar? (text.text ++ rest)).map _ = _
    rw [hscalar]
    rfl
  | array space items => rfl
  | object space members => rfl

/-! ### Places where no key stands -/

/-- A place in a text, with more behind it, where no member with this name begins. -/
def Idle (text back name : List Char) (depth n : Nat) : Prop :=
  isKey (Outline.scan (text ++ back)) n depth = true → afterKey? name (text.drop n) = none

/-- No member with this name begins in a stretch of a text. -/
def IdleOn (front piece rest back name : List Char) (depth : Nat) : Prop :=
  ∀ n, front.length ≤ n → n < front.length + piece.length → Idle (front ++ (piece ++ rest)) back name depth n

theorem IdleOn.append {front x y rest back name : List Char} {depth : Nat}
    (hx : IdleOn front x (y ++ rest) back name depth) (hy : IdleOn (front ++ x) y rest back name depth) :
    IdleOn front (x ++ y) rest back name depth := by
  intro n hstart hstop
  rw [List.append_assoc]
  rw [List.length_append] at hstop
  by_cases hn : n < front.length + x.length
  · exact hx n hstart hn
  · rw [← List.append_assoc]
    exact hy n (by rw [List.length_append]; omega) (by rw [List.length_append]; omega)

/-- A place inside of a stretch. -/
theorem drop_of_mem {front piece : List Char} {n : Nat} (hstart : front.length ≤ n)
    (hstop : n < front.length + piece.length) (rest : List Char) :
    ∃ c tail, c ∈ piece ∧ (front ++ (piece ++ rest)).drop n = c :: tail := by
  obtain ⟨k, rfl⟩ := Nat.exists_eq_add_of_le hstart
  have hk : k < piece.length := by omega
  rw [List.drop_length_add_append, List.drop_append_of_le_length hk.le, List.drop_eq_getElem_cons hk]
  exact ⟨piece[k], _, List.getElem_mem hk, rfl⟩

theorem idleOn_of_unquoted {front piece rest back name : List Char} {depth : Nat} (h : Unquoted piece) :
    IdleOn front piece rest back name depth := by
  intro n hstart hstop _
  obtain ⟨c, tail, hc, hdrop⟩ := drop_of_mem hstart hstop rest
  rw [hdrop]
  by_contra hne
  obtain ⟨found, hfound⟩ := Option.ne_none_iff_exists'.mp hne
  obtain ⟨opening, tail', htext, hopening⟩ := afterKey?_head hfound
  obtain ⟨rfl, -⟩ := List.cons.inj htext
  rw [h c hc] at hopening
  cases hopening

theorem unquoted_of_isQuiet {text : List Char} (h : ∀ c ∈ text, Outline.isQuiet c = true) : Unquoted text := by
  intro c hc
  have := h c hc
  simp only [Outline.isQuiet, Bool.not_eq_true', List.contains_eq_mem, decide_eq_false_iff_not, List.mem_cons,
    not_or] at this
  simp [isQuote, this]

theorem unquoted_char {c : Char} (h : isQuote c = false) : Unquoted [c] := fun d hd => by
  rwa [List.mem_singleton.mp hd]

theorem Items.unquoted_comma (items : Items) : Unquoted items.comma := by
  cases items with
  | nil => exact List.forall_mem_nil _
  | cons => exact unquoted_char (by decide)

theorem Members.unquoted_comma (members : Members) : Unquoted members.comma := by
  cases members with
  | nil => exact List.forall_mem_nil _
  | cons => exact unquoted_char (by decide)

/-- A place outside of literals, `depth` objects deep. -/
def Reached (front : List Char) (depth : Nat) : Prop := ∃ found, Outline.Reaches front depth found

theorem Reached.append {front text : List Char} {depth : Nat} (h : Reached front depth)
    (ht : Outline.Closed text) : Reached (front ++ text) depth := by
  obtain ⟨o, ho⟩ := h
  obtain ⟨p, hp⟩ := ht front.length depth
  exact ⟨_, ho.append hp⟩

theorem Reached.opening {front : List Char} {depth : Nat} (h : Reached front depth) :
    Reached (front ++ ['\x7b']) (depth + 1) := by
  obtain ⟨o, ho⟩ := h
  exact ⟨_, ho.opening⟩

/-- Inside of a string no literal begins. -/
theorem startsLiteral_token {front : List Char} {depth : Nat} (h : Reached front depth) (token : Token)
    (rest : List Char) {n : Nat} (hstart : front.length ≤ n) (hstop : n < front.length + token.render.length) :
    (Outline.scan (front ++ token.render ++ rest)).startsLiteral n = (front.length == n) := by
  obtain ⟨o, ho⟩ := h
  have hliteral := Outline.closes_string token.body front.length depth
  refine (Outline.startsLiteral_closed ho hliteral hstart hstop).trans ?_
  simp [Outline.startsLiteral]

theorem idleOn_inside {front : List Char} {depth : Nat} (h : Reached front depth) (token : Token)
    {rest back name : List Char} {n : Nat} (hstart : front.length < n)
    (hstop : n < front.length + token.render.length) :
    Idle (front ++ (token.render ++ rest)) back name depth n := by
  intro hkey
  have hliteral := startsLiteral_token h token (rest ++ back) hstart.le hstop
  rw [show front ++ token.render ++ (rest ++ back) = front ++ (token.render ++ rest) ++ back by simp,
    beq_eq_false_iff_ne.mpr (by omega)] at hliteral
  rw [isKey, hliteral] at hkey
  cases hkey

/-- An object lies deeper than the members around it. -/
theorem idleOn_object {front inner : List Char} {depth : Nat} (h : Reached front depth)
    (hinner : Outline.Closed inner) {rest back name : List Char} :
    IdleOn front ('\x7b' :: inner ++ ['\x7d']) rest back name depth := by
  intro n hstart hstop
  by_cases hn : n = front.length
  · have hbrace : IdleOn front ['\x7b'] (inner ++ ['\x7d'] ++ rest) back name depth :=
      idleOn_of_unquoted (unquoted_char (by decide))
    exact hbrace n hstart (by simp [hn])
  · intro hkey
    obtain ⟨o, ho⟩ := h.opening
    obtain ⟨p, hp⟩ := hinner (front ++ ['\x7b']).length (depth + 1)
    simp only [List.length_append, List.length_cons, List.length_nil] at hstop
    have hdeep : depth + 1 ≤ (Outline.scan (front ++ ['\x7b'] ++ inner ++ '\x7d' :: (rest ++ back))).depthAt n :=
      Outline.depthAt_closed ho hp (by simp; omega) (by simp; omega)
    simp only [isKey, Bool.and_eq_true, beq_iff_eq] at hkey
    rw [show front ++ ['\x7b'] ++ inner ++ '\x7d' :: (rest ++ back) =
      front ++ ('\x7b' :: inner ++ ['\x7d'] ++ rest) ++ back by simp, hkey.2] at hdeep
    omega

mutual

/-- **No member begins inside of a value**, as far as an object around the value is concerned. -/
theorem Value.idleOn {name : List Char} (hname : Unquoted name) {depth : Nat} {back : List Char} :
    ∀ (value : Value) {front rest : List Char}, Reached front depth → Ends rest →
      IdleOn front value.render rest back name depth
  | .string token, front, rest, h, hrest => by
    intro n hstart hstop
    by_cases hn : n = front.length
    · intro _
      rw [hn, List.drop_left]
      exact afterKey?_of_ends hname token.isQuote hrest
    · exact idleOn_inside h token (by omega) hstop
  | .word text, front, rest, _, _ => idleOn_of_unquoted (unquoted_of_isQuiet text.isQuiet)
  | .array space items, front, rest, h, _ => by
    have hopening : IdleOn front ['['] (space.text ++ items.render ++ [']'] ++ rest) back name depth :=
      idleOn_of_unquoted (unquoted_char (by decide))
    have hfront : Reached (front ++ ['[']) depth := h.append (closed_char (by decide))
    refine hopening.append (IdleOn.append (IdleOn.append ?_ ?_) ?_)
    · exact idleOn_of_unquoted (unquoted_of_isQuiet space.isQuiet)
    · exact items.idleOn hname (hfront.append space.closed) (ends_cons (.inr (.inl rfl)) rest)
    · exact idleOn_of_unquoted (unquoted_char (by decide))
  | .object space members, front, rest, h, _ => idleOn_object h (space.closed.append members.closed)

theorem Items.idleOn {name : List Char} (hname : Unquoted name) {depth : Nat} {back : List Char} :
    ∀ (items : Items) {front rest : List Char}, Reached front depth → Ends rest →
      IdleOn front items.render rest back name depth
  | .nil, front, rest, _, _ => idleOn_of_unquoted (List.forall_mem_nil _)
  | .cons before value behind others, front, rest, h, hrest => by
    have hfront := h.append before.closed
    have hbehind := hfront.append value.closed
    refine IdleOn.append ?_ (IdleOn.append ?_ (IdleOn.append (IdleOn.append ?_ ?_) ?_))
    · exact idleOn_of_unquoted (unquoted_of_isQuiet before.isQuiet)
    · refine value.idleOn hname hfront ?_
      rw [List.append_assoc, List.append_assoc]
      exact ends_append behind (others.ends_comma fun hnil => hrest)
    · exact idleOn_of_unquoted (unquoted_of_isQuiet behind.isQuiet)
    · exact idleOn_of_unquoted others.unquoted_comma
    · exact others.idleOn hname (hbehind.append (behind.closed.append others.closed_comma)) hrest

end

end ManifestBump.Json

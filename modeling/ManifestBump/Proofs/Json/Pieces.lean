import ManifestBump.Proofs.Json.Lookup

/-! Texts of whole strings and of what is between them.

In such a text literals begin where its strings do (`Pieces.scan`), and a key that is read there is read from what
is in front of any string behind it (`leaf?_pieces`, `object?_pieces`). A string of a tree stands between two such
texts (`Document.string_of_lookup`). -/
namespace ManifestBump.Json
open Text

/-- A character between strings: no quote, and not the beginning of a comment. -/
def isCode (c : Char) : Bool := !(['"', '\'', '/'].contains c)

/-- A text of whole strings and characters between them. -/
inductive Pieces : List Char → Prop where
  | nil : Pieces []
  | code {c : Char} {rest : List Char} (hc : isCode c = true) (h : Pieces rest) : Pieces (c :: rest)
  | string (token : Token) {rest : List Char} (h : Pieces rest) : Pieces (token.render ++ rest)

/-! ### Cuts -/

theorem Pieces.append {x y : List Char} (hx : Pieces x) (hy : Pieces y) : Pieces (x ++ y) := by
  induction hx with
  | nil => exact hy
  | code hc _ ih => exact .code hc ih
  | string token _ ih =>
    rw [List.append_assoc]
    exact .string token ih

theorem pieces_of_isCode {text : List Char} (h : ∀ c ∈ text, isCode c = true) : Pieces text := by
  induction text with
  | nil => exact .nil
  | cons c text ih => exact .code (h c List.mem_cons_self) (ih fun d hd => h d (List.mem_cons_of_mem _ hd))

/-- The first piece. -/
theorem Pieces.cases_cons {c : Char} {rest : List Char} (h : Pieces (c :: rest)) :
    (isCode c = true ∧ Pieces rest) ∨ ∃ token behind, c :: rest = Token.render token ++ behind ∧ Pieces behind := by
  generalize htext : c :: rest = text at h
  cases h with
  | nil => cases htext
  | code hc h =>
    obtain ⟨rfl, rfl⟩ := List.cons.inj htext
    exact .inl ⟨hc, h⟩
  | string token h => exact .inr ⟨token, _, rfl, h⟩

/-- Behind characters that are no strings. -/
theorem Pieces.of_isCode_append {x y : List Char} (hx : ∀ c ∈ x, isCode c = true) (h : Pieces (x ++ y)) :
    Pieces y := by
  induction x with
  | nil => exact h
  | cons c x ih =>
    rcases Pieces.cases_cons h with ⟨-, h⟩ | ⟨token, behind, heq, -⟩
    · exact ih (fun d hd => hx d (List.mem_cons_of_mem _ hd)) h
    · obtain ⟨rfl, -⟩ := List.cons.inj heq
      exact absurd (hx '"' List.mem_cons_self) (by decide)

/-! ### The scan -/

/-- Between strings the scan finds nothing but braces. -/
theorem step_of_isCode {c : Char} (h : isCode c = true) (n d : Nat) :
    ∃ braces d', (∀ next, Outline.step .code n d c next = ⟨0, ⟨[], braces⟩, .code, d'⟩) ∧
      ∀ b ∈ braces, b.offset = n := by
  simp only [isCode, Bool.not_eq_true', List.contains_eq_mem, decide_eq_false_iff_not, List.mem_cons, not_or] at h
  obtain ⟨h₁, h₂, h₃, -⟩ := h
  by_cases hopen : c = '\x7b'
  · exact ⟨[⟨n, d + 1⟩], d + 1, fun next => by simp [Outline.step, hopen], by simp⟩
  by_cases hclose : c = '\x7d'
  · exact ⟨[⟨n, d - 1⟩], d - 1, fun next => by simp [Outline.step, hclose], by simp⟩
  · exact ⟨[], d, fun next => by simp [Outline.step, h₁, h₂, h₃, hopen, hclose, Outline.blank], by simp⟩

/-- **Literals begin where strings do.** -/
theorem Pieces.scan {front : List Char} (h : Pieces front) (n d : Nat) :
    ∃ found d', (∀ rest, Outline.scanFrom .code n d (front ++ rest) =
        found ++ Outline.scanFrom .code (n + front.length) d' rest) ∧
      found.Within (· ≤ n + front.length) ∧
      ∀ s ∈ found.literals, ∃ x token y, front = x ++ (Token.render token ++ y) ∧ Pieces y ∧
        s.start = n + x.length := by
  induction h generalizing n d with
  | nil => exact ⟨Outline.blank, d, fun rest => rfl, Outline.within_blank, by simp [Outline.blank]⟩
  | @code c rest hc _ ih =>
    obtain ⟨braces, d₁, hstep, hbraces⟩ := step_of_isCode hc n d
    obtain ⟨found, d', hscan, hwithin, hliterals⟩ := ih (n + 1) d₁
    have hlen : n + 1 + rest.length = n + (c :: rest).length := by
      rw [List.length_cons]
      omega
    rw [hlen] at hscan hwithin
    refine ⟨⟨[], braces⟩ ++ found, d', fun more => ?_, Outline.Within.append ⟨by simp, fun b hb => ?_⟩ hwithin, ?_⟩
    · rw [List.cons_append, Outline.scanFrom_cons, hstep, Outline.append_assoc, ← hscan more]
      rfl
    · rw [hbraces b hb]
      omega
    · intro s hs
      obtain ⟨x, token, y, rfl, hy, hstart⟩ := hliterals s (by simpa using hs)
      exact ⟨c :: x, token, y, rfl, hy, by rw [hstart, List.length_cons]; omega⟩
  | @string token rest hrest ih =>
    have htoken := Outline.closes_string token.body n d
    obtain ⟨found, d', hscan, hwithin, hliterals⟩ := ih (n + token.render.length) d
    have hlen : n + token.render.length + rest.length = n + (token.render ++ rest).length := by
      rw [List.length_append, Nat.add_assoc]
    rw [hlen] at hscan hwithin
    refine ⟨⟨[⟨n, n + token.text.length + 2⟩], []⟩ ++ found, d', fun more => ?_,
      Outline.Within.append ⟨fun s hs => ?_, by simp⟩ hwithin, ?_⟩
    · rw [List.append_assoc, Outline.append_assoc, ← hscan more]
      exact htoken.scan (rest ++ more)
    · obtain rfl := List.mem_singleton.mp hs
      simp only [List.length_append, Token.render, List.length_cons, List.length_nil]
      omega
    · intro s hs
      rw [Outline.literals_append] at hs
      rcases List.mem_append.mp hs with hs | hs
      · obtain rfl := List.mem_singleton.mp hs
        exact ⟨[], token, rest, rfl, hrest, rfl⟩
      · obtain ⟨x, token', y, rfl, hy, hstart⟩ := hliterals s hs
        exact ⟨token.render ++ x, token', y, by simp, hy, by rw [hstart, List.length_append]; omega⟩

/-! ### Keys -/

theorem isCode_of_isBlank {c : Char} (h : isBlank c = true) : isCode c = true := by
  have hne : ∀ d, isBlank d = false → c ≠ d := by
    rintro d hd rfl
    rw [h] at hd
    cases hd
  simp [isCode, hne '"' (by decide), hne '\'' (by decide), hne '/' (by decide)]

/-- In front of a string a value is read up to the string at most. -/
theorem scalar?_pieces {c : Char} {z : List Char} (hz : Pieces (c :: z)) :
    (∀ u, scalar? (c :: z ++ '"' :: u) = none) ∨
    ∃ slot : Slot, slot.lead.length + slot.value.length ≤ (c :: z).length ∧
      ∀ u, scalar? (c :: z ++ '"' :: u) = some slot := by
  rcases hz.cases_cons with ⟨hc, -⟩ | ⟨token, behind, htext, -⟩
  · have hquote : isQuote c = false := by
      simp only [isCode, Bool.not_eq_true', List.contains_eq_mem, decide_eq_false_iff_not, List.mem_cons, not_or] at hc
      simp [isQuote, hc]
    have hread : ∀ u, scalar? (c :: z ++ '"' :: u) = if ((c :: z).takeWhile isBare).isEmpty then none
        else some ⟨[], (c :: z).takeWhile isBare, []⟩ := by
      intro u
      have hstops : Stops isQuote (c :: z ++ '"' :: u) := stops_cons_iff.mpr hquote
      rw [scalar?_of_stops hstops, takeWhile_append_cons (by decide)]
    by_cases hempty : ((c :: z).takeWhile isBare).isEmpty
    · exact .inl fun u => by rw [hread u, if_pos hempty]
    · refine .inr ⟨⟨[], (c :: z).takeWhile isBare, []⟩, ?_, fun u => by rw [hread u, if_neg hempty]⟩
      rw [List.length_nil, Nat.zero_add]
      exact (List.takeWhile_sublist _).length_le
  · rw [htext]
    refine .inr ⟨⟨['"'], token.text, ['"']⟩, ?_, fun u => ?_⟩
    · simp only [Token.render, List.length_append, List.length_cons, List.length_nil]
      omega
    · have hinner : ∀ d ∈ token.text, (d != '"' && d != '\n') = true := by
        intro d hd
        have := token.isInner d hd
        simp only [Outline.isInner, Bool.and_eq_true] at this
        simp [this]
      have hsplit : token.render ++ behind ++ '"' :: u = '"' :: (token.text ++ '"' :: (behind ++ '"' :: u)) := by
        simp [Token.render]
      rw [hsplit, scalar?_of_isQuote (by decide)]
      exact quoted?_eq_some_iff.mpr ⟨token.text, _, hinner, rfl, rfl⟩

section Keys
variable {name y : List Char} (hname : Unquoted name) (hy : Pieces y) (token : Token)
include hname hy

/-- A key is read up to the next string at most, whatever that is. -/
theorem afterKey?_pieces {u lead behind : List Char}
    (h : afterKey? name (token.render ++ (y ++ '"' :: u)) = some (lead, behind)) :
    ∃ z, token.render ++ y = lead ++ z ∧ Pieces z ∧
      ∀ u', afterKey? name (token.render ++ (y ++ '"' :: u')) = some (lead, z ++ '"' :: u') := by
  obtain ⟨rfl, before, gap, hbefore, hgap, hstops, hrest, rfl⟩ := (afterKey?_quoted_iff hname token.isQuote).mp h
  have hcode : ∀ c ∈ before ++ ':' :: gap, isCode c = true := by
    intro c hc
    rcases List.mem_append.mp hc with hc | hc
    · exact isCode_of_isBlank (hbefore c hc)
    · rcases List.mem_cons.mp hc with rfl | hc
      · decide
      · exact isCode_of_isBlank (hgap c hc)
  obtain ⟨z, rfl, rfl⟩ : ∃ z, y = before ++ ':' :: gap ++ z ∧ behind = z ++ '"' :: u := by
    have hrest : y ++ '"' :: u = (before ++ ':' :: gap) ++ behind := by rw [hrest]; simp
    rcases List.append_eq_append_iff.mp hrest with ⟨a, ha, hbehind⟩ | ⟨z, rfl, rfl⟩
    · cases a with
      | nil => exact ⟨[], by rw [ha]; simp, hbehind.symm⟩
      | cons c a =>
        obtain ⟨rfl, -⟩ := List.cons.inj hbehind
        exact absurd (hcode '"' (by rw [ha]; simp)) (by decide)
    · exact ⟨z, rfl, rfl⟩
  refine ⟨z, by simp [written, Token.render], hy.of_isCode_append hcode, fun u' => ?_⟩
  refine (afterKey?_quoted_iff hname token.isQuote).mpr ⟨rfl, before, gap, hbefore, hgap, ?_, by simp, rfl⟩
  cases z with
  | nil => exact stops_cons_iff.mpr (by decide)
  | cons c z => exact stops_cons_iff.mpr (stops_cons_iff.mp hstops)

/-- **A key in front of a string has a value in front of it, or the string as its value**, or none. -/
theorem leaf?_pieces :
    (∀ u, leaf? name (token.render ++ (y ++ '"' :: u)) = none) ∨
    (∃ slot : Slot, slot.lead.length + slot.value.length ≤ (token.render ++ y).length ∧
      ∀ u, leaf? name (token.render ++ (y ++ '"' :: u)) = some slot) ∨
    ∀ u, leaf? name (token.render ++ (y ++ '"' :: u)) =
      (quoted? '"' u).map fun slot => slot.behind (token.render ++ y) := by
  by_cases hnone : ∀ u, afterKey? name (token.render ++ (y ++ '"' :: u)) = none
  · exact .inl fun u => leaf?_eq_none (hnone u)
  obtain ⟨u, hne⟩ := not_forall.mp hnone
  obtain ⟨⟨lead, behind⟩, hfound⟩ := Option.ne_none_iff_exists'.mp hne
  obtain ⟨z, hsplit, hz, hread⟩ := afterKey?_pieces hname hy token hfound
  have hleaf := fun u => leaf?_of_afterKey? (hread u)
  cases z with
  | nil =>
    rw [List.append_nil] at hsplit
    rw [hsplit]
    exact .inr (.inr hleaf)
  | cons c z =>
    rcases scalar?_pieces hz with hnone | ⟨slot, hlen, hslot⟩
    · exact .inl fun u => by rw [hleaf u, hnone u, Option.map_none]
    · refine .inr (.inl ⟨slot.behind lead, ?_, fun u => by rw [hleaf u, hslot u, Option.map_some]⟩)
      rw [hsplit]
      simp only [Slot.behind, List.length_append]
      omega

/-- A key in front of a string opens an object in front of it, or none. -/
theorem object?_pieces :
    (∀ u, object? name (token.render ++ (y ++ '"' :: u)) = none) ∨
    ∃ k, k < (token.render ++ y).length ∧ ∀ u, object? name (token.render ++ (y ++ '"' :: u)) = some k := by
  by_cases hnone : ∀ u, object? name (token.render ++ (y ++ '"' :: u)) = none
  · exact .inl hnone
  obtain ⟨u, hne⟩ := not_forall.mp hnone
  obtain ⟨k, hk⟩ := Option.ne_none_iff_exists'.mp hne
  obtain ⟨lead, rest, hfound, rfl⟩ := object?_eq_some_iff.mp hk
  obtain ⟨z, hsplit, -, hread⟩ := afterKey?_pieces hname hy token hfound
  have hbrace := hread u
  rw [hfound] at hbrace
  cases z with
  | nil => exact absurd hbrace (by simp)
  | cons c z =>
    obtain ⟨rfl, -⟩ : c = '\x7b' ∧ z ++ '"' :: u = rest := by simpa using hbrace.symm
    refine .inr ⟨lead.length, ?_, fun u => object?_eq_some_iff.mpr ⟨lead, _, hread u, rfl⟩⟩
    rw [hsplit, List.length_append, List.length_cons]
    omega

end Keys

/-! ### Trees -/

theorem isCode_of_isQuiet {c : Char} (h : Outline.isQuiet c = true) : isCode c = true := by
  simp only [Outline.isQuiet, Bool.not_eq_true', List.contains_eq_mem, decide_eq_false_iff_not, List.mem_cons,
    not_or] at h
  simp [isCode, h]

theorem Space.pieces (space : Space) : Pieces space.text :=
  pieces_of_isCode fun c hc => isCode_of_isQuiet (space.isQuiet c hc)

theorem Token.pieces (token : Token) : Pieces token.render := by
  have h := Pieces.string token .nil
  rwa [List.append_nil] at h

theorem Token.pieces_lead (key : Token) (gap gap' : Space) : Pieces (key.lead gap gap') :=
  key.pieces.append (gap.pieces.append (.code (by decide) gap'.pieces))

theorem pieces_char {c : Char} (h : isCode c = true) : Pieces [c] := .code h .nil

theorem Items.pieces_comma (items : Items) : Pieces items.comma := by
  cases items with
  | nil => exact .nil
  | cons => exact pieces_char (by decide)

theorem Members.pieces_comma (members : Members) : Pieces members.comma := by
  cases members with
  | nil => exact .nil
  | cons => exact pieces_char (by decide)

mutual

theorem Value.pieces : ∀ value : Value, Pieces value.render
  | .string token => token.pieces
  | .word text => pieces_of_isCode fun c hc => isCode_of_isQuiet (text.isQuiet c hc)
  | .array space items => .code (by decide) ((space.pieces.append items.pieces).append (pieces_char (by decide)))
  | .object space members => .code (by decide) ((space.pieces.append members.pieces).append (pieces_char (by decide)))

theorem Items.pieces : ∀ items : Items, Pieces items.render
  | .nil => .nil
  | .cons before value behind rest =>
    before.pieces.append (value.pieces.append ((behind.pieces.append rest.pieces_comma).append rest.pieces))

theorem Members.pieces : ∀ members : Members, Pieces members.render
  | .nil => .nil
  | .cons before key gap gap' value behind rest =>
    before.pieces.append ((key.pieces_lead gap gap').append
      (value.pieces.append ((behind.pieces.append rest.pieces_comma).append rest.pieces)))

end

/-- A member in a text, with pieces in front of it and nothing behind its value that a value may go on with. -/
structure Standing (text x : List Char) (key : Token) (gap gap' : Space) (value : Value) (y : List Char) : Prop where
  text_eq : text = x ++ (key.lead gap gap' ++ (value.render ++ y))
  pieces : Pieces x
  ends : ∀ rest, Ends rest → Ends (y ++ rest)

/-- In a longer text a member stands as well. -/
theorem Standing.within {text x y front : List Char} {key : Token} {gap gap' : Space} {value : Value}
    (h : Standing text x key gap gap' value y) (hfront : Pieces front) (back : List Char)
    (hback : ∀ rest, Ends rest → Ends (back ++ rest)) :
    Standing (front ++ (text ++ back)) (front ++ x) key gap gap' value (y ++ back) where
  text_eq := by rw [h.text_eq]; simp
  pieces := hfront.append h.pieces
  ends rest hrest := by
    rw [List.append_assoc]
    exact h.ends _ (hback rest hrest)

/-- The member that gave the first answer. -/
theorem Members.standing_of_first {answer : Nat → Token → Value → Option Span} {span : Span} :
    ∀ {members : Members} {offset : Nat}, members.first answer offset = some span →
      ∃ x key gap gap' value y, Standing members.render x key gap gap' value y ∧
        answer (offset + (x ++ key.lead gap gap').length) key value = some span
  | .cons before key gap gap' value behind rest, offset, h => by
    rw [Members.first] at h
    rcases Option.or_eq_some_iff.mp h with h | ⟨-, h⟩
    · refine ⟨before.text, key, gap, gap', value, behind.text ++ rest.comma ++ rest.render,
        ⟨rfl, before.pieces, fun more hmore => ?_⟩, h⟩
      simp only [List.append_assoc]
      exact ends_append behind (rest.ends_comma fun _ => hmore)
    · obtain ⟨x, key', gap₁, gap₂, value', y, hstanding, hanswer⟩ := Members.standing_of_first h
      have hfront : Pieces (before.text ++ (key.lead gap gap' ++ (value.render ++ (behind.text ++ rest.comma)))) :=
        before.pieces.append ((key.pieces_lead gap gap').append
          (value.pieces.append (behind.pieces.append rest.pieces_comma)))
      have hwithin := hstanding.within hfront [] fun more hmore => hmore
      have htext : before.text ++ (key.lead gap gap' ++ (value.render ++ (behind.text ++ rest.comma))) ++
          (rest.render ++ []) = Members.render (.cons before key gap gap' value behind rest) := by
        simp [Members.render]
      rw [htext] at hwithin
      refine ⟨_, key', gap₁, gap₂, value', _, hwithin, ?_⟩
      rw [← hanswer]
      congr 1
      simp only [List.length_append]
      omega

/-- **A scalar that a lookup finds is the value of a member** somewhere in the text. -/
theorem Members.standing_of_lookup {leaf : List Char} {names : List (List Char)} {members : Members} {offset : Nat}
    {span : Span} (h : members.lookup leaf names offset = some span) :
    ∃ x key gap gap' value y, Standing members.render x key gap gap' value y ∧
      value.scalar? (offset + (x ++ key.lead gap gap').length) = some span := by
  induction names generalizing members offset with
  | nil =>
    rw [Members.lookup] at h
    obtain ⟨x, key, gap, gap', value, y, hstanding, hanswer⟩ := Members.standing_of_first h
    split at hanswer
    · exact ⟨x, key, gap, gap', value, y, hstanding, hanswer⟩
    · cases hanswer
  | cons name names ih =>
    rw [Members.lookup] at h
    obtain ⟨x, key, gap, gap', value, y, hstanding, hanswer⟩ := Members.standing_of_first h
    split at hanswer
    · obtain ⟨⟨space, inner⟩, hvalue, hinner⟩ := Option.bind_eq_some_iff.mp hanswer
      cases value with
      | object space' members' =>
        cases hvalue
        obtain ⟨x', key', gap₁, gap₂, value', y', hstanding', hscalar⟩ := ih hinner
        have hfront : Pieces (x ++ (key.lead gap gap' ++ '\x7b' :: space.text)) :=
          hstanding.pieces.append ((key.pieces_lead gap gap').append (.code (by decide) space.pieces))
        have hwithin := hstanding'.within hfront ('\x7d' :: y) fun more _ => ends_cons (.inr (.inr rfl)) _
        have htext : x ++ (key.lead gap gap' ++ '\x7b' :: space.text) ++ (inner.render ++ '\x7d' :: y) =
            members.render := by
          rw [hstanding.text_eq, Value.render]
          simp
        rw [htext] at hwithin
        refine ⟨_, key', gap₁, gap₂, value', _, hwithin, ?_⟩
        rw [← hscalar]
        congr 1
        simp only [List.length_append, List.length_cons]
        omega
      | string token => cases hvalue
      | word text => cases hvalue
      | array space items => cases hvalue
    · cases hanswer

/-- **A string that a path names stands between pieces of the text**, at the end of a value. -/
theorem Document.string_of_lookup {d : Document} {path : KeyPath} {span : Span} (h : d.lookup path = some span)
    (hstring : d.render[span.start - 1]? = some '"') :
    ∃ x token y, d.render = x ++ (Token.render token ++ y) ∧ Pieces x ∧ Ends y ∧
      span = ⟨x.length + 1, x.length + 1 + token.text.length⟩ := by
  obtain ⟨x, key, gap, gap', value, y, hstanding, hscalar⟩ := Members.standing_of_lookup h
  have hfront : Pieces d.front := (d.before.pieces.append (pieces_char (by decide))).append d.space.pieces
  have hdocument := hstanding.within hfront ('\x7d' :: d.behind.text)
    fun more _ => ends_cons (.inr (.inr rfl)) _
  rw [← d.render_eq] at hdocument
  set front := d.front ++ x ++ key.lead gap gap' with hfrontEq
  have htext : d.render = front ++ (value.render ++ (y ++ '\x7d' :: d.behind.text)) := by
    rw [hdocument.text_eq, hfrontEq]
    simp
  have hlen : d.before.text.length + 1 + d.space.text.length + (x ++ key.lead gap gap').length = front.length := by
    simp only [hfrontEq, Document.front, List.length_append, List.length_singleton]
    omega
  rw [hlen] at hscalar
  have hends : Ends (y ++ '\x7d' :: d.behind.text) := by
    have := hdocument.ends [] ends_nil
    rwa [List.append_nil] at this
  cases value with
  | string token =>
    cases hscalar
    exact ⟨front, token, _, htext, hdocument.pieces.append (key.pieces_lead gap gap'), hends, rfl⟩
  | word text =>
    -- In front of a number there is a colon or a space.
    cases hscalar
    obtain ⟨c, hlast, hc⟩ : ∃ c, front.getLast? = some c ∧ c ≠ '"' := by
      cases hgap : gap'.text.getLast? with
      | none =>
        rw [List.getLast?_eq_none_iff] at hgap
        exact ⟨':', by simp [hfrontEq, Token.lead, List.getLast?_append, List.getLast?_cons, hgap], by decide⟩
      | some c =>
        refine ⟨c, by simp [hfrontEq, Token.lead, List.getLast?_append, List.getLast?_cons, hgap], ?_⟩
        rintro rfl
        exact absurd (gap'.isBlank '"' (List.mem_of_getLast? hgap)) (by decide)
    have hpos : 0 < front.length := List.length_pos_iff.mpr fun hnil => by simp [hnil] at hlast
    have hstring : d.render[front.length - 1]? = some '"' := hstring
    rw [htext, List.getElem?_append_left (by omega), ← List.getLast?_eq_getElem?, hlast] at hstring
    exact absurd (Option.some.inj hstring) hc
  | array space items => cases hscalar
  | object space members => cases hscalar

end ManifestBump.Json

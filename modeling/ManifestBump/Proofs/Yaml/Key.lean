import ManifestBump.Manifest.Yaml
import ManifestBump.Proofs.Text.Cut

/-! Keys at the front of a line.

A key can be spelled in several ways: more or less of the blanks in front may be indentation, and
quotes may delimit the key or belong to it. But all ways to read a key from one line end at the same
colon (`Spelled.unique`), so what is read behind it does not depend on the way, and of the indentations
the deepest counts (`frontOf?_eq_some_iff`). -/
namespace ManifestBump.Yaml
open Text

/-- Either quote. -/
def isQuote (c : Char) : Bool := c == '"' || c == '\''

/-- One quote, or nothing. -/
def OptionalQuote (text : List Char) : Prop := text = [] ∨ ∃ c, isQuote c = true ∧ text = [c]

theorem mem_optionalQuote_iff {text quote rest : List Char} :
    (quote, rest) ∈ optionalQuote text ↔ text = quote ++ rest ∧ OptionalQuote quote := by
  cases text with
  | nil =>
    simp only [optionalQuote, List.mem_singleton, Prod.mk.injEq]
    constructor
    · intro h
      obtain ⟨rfl, rfl⟩ := h
      exact ⟨rfl, .inl rfl⟩
    · intro h
      obtain ⟨h, -⟩ := h
      exact ⟨(List.append_eq_nil_iff.mp h.symm).1, (List.append_eq_nil_iff.mp h.symm).2⟩
  | cons c text =>
    have hplain : ([], c :: text) ∈ optionalQuote (c :: text) := by
      simp only [optionalQuote]
      split <;> simp
    constructor
    · intro h
      simp only [optionalQuote] at h
      split at h
      · rename_i hquote
        rcases List.mem_cons.mp h with heq | h
        · cases heq
          exact ⟨rfl, .inr ⟨c, hquote, rfl⟩⟩
        · cases List.mem_singleton.mp h
          exact ⟨rfl, .inl rfl⟩
      · cases List.mem_singleton.mp h
        exact ⟨rfl, .inl rfl⟩
    · intro h
      obtain ⟨htext, rfl | ⟨d, hquote, rfl⟩⟩ := h
      · rw [List.nil_append] at htext
        rwa [htext] at hplain ⊢
      · obtain ⟨rfl, rfl⟩ := List.cons.inj htext
        have hquote : (c == '"' || c == '\'') = true := hquote
        simp [optionalQuote, hquote]

/-! ### Spellings -/

/-- Indentation, the key with or without quotes, blanks, and the colon. -/
inductive Spelled (key : List Char) : (lead : List Char) → (indent : Nat) → Prop where
  | intro {spaces opening closing blanks : List Char} (hspaces : ∀ c ∈ spaces, isIndent c = true)
    (hopening : OptionalQuote opening) (hclosing : OptionalQuote closing)
    (hblanks : ∀ c ∈ blanks, isIndent c = true) :
    Spelled key (spaces ++ opening ++ key ++ closing ++ blanks ++ [':']) spaces.length

/-- A character that may surround a key. -/
def isEdge (c : Char) : Bool := isIndent c || isQuote c

theorem isEdge_of_optionalQuote {quote : List Char} (h : OptionalQuote quote) :
    ∀ c ∈ quote, isEdge c = true := by
  rcases h with rfl | ⟨c, hc, rfl⟩
  · simp
  · simp [isEdge, hc]

theorem isEdge_of_isIndent {c : Char} (h : isIndent c = true) : isEdge c = true := by simp [isEdge, h]

/-- A key with its colon. What is around the key is made of blanks and quotes. -/
theorem Spelled.exists_colon {key lead : List Char} {indent : Nat} (h : Spelled key lead indent) :
    ∃ front, lead = front ++ [':'] ∧ ∀ c, isEdge c = false → c ∈ front → c ∈ key := by
  obtain ⟨hspaces, hopening, hclosing, hblanks⟩ := h
  rename_i spaces opening closing blanks
  refine ⟨spaces ++ opening ++ key ++ closing ++ blanks, rfl, fun c hc hmem => ?_⟩
  have hedge : ∀ edge : List Char, (∀ d ∈ edge, isEdge d = true) → c ∉ edge := by
    intro edge hall hmem
    rw [hall c hmem] at hc
    cases hc
  have hspaces' := hedge _ fun d hd => isEdge_of_isIndent (hspaces d hd)
  have hblanks' := hedge _ fun d hd => isEdge_of_isIndent (hblanks d hd)
  have hopening' := hedge _ (isEdge_of_optionalQuote hopening)
  have hclosing' := hedge _ (isEdge_of_optionalQuote hclosing)
  simpa [hspaces', hblanks', hopening', hclosing'] using hmem

/-- What stands behind the colon of a key, told from the line without regard to indentation or
quotes. -/
def restOf (key line : List Char) : List Char :=
  (((line.dropWhile isEdge).drop (key.dropWhile isEdge).length).dropWhile isEdge).tail

theorem restOf_eq {key lead : List Char} {indent : Nat} (h : Spelled key lead indent) (rest : List Char) :
    restOf key (lead ++ rest) = rest := by
  obtain ⟨hspaces, hopening, hclosing, hblanks⟩ := h
  rename_i spaces opening closing blanks
  obtain ⟨edge, core, rfl, hedge, hcore⟩ := exists_cut isEdge key
  have hcolon : Stops isEdge (':' :: rest) := stops_cons_iff.mpr (by decide)
  have hfront : ∀ c ∈ spaces ++ opening ++ edge, isEdge c = true := by
    intro c hc
    rcases List.mem_append.mp hc with hc | hc
    · rcases List.mem_append.mp hc with hc | hc
      · exact isEdge_of_isIndent (hspaces c hc)
      · exact isEdge_of_optionalQuote hopening c hc
    · exact hedge c hc
  have hback : ∀ c ∈ closing ++ blanks, isEdge c = true := by
    intro c hc
    rcases List.mem_append.mp hc with hc | hc
    · exact isEdge_of_optionalQuote hclosing c hc
    · exact isEdge_of_isIndent (hblanks c hc)
  have hline : spaces ++ opening ++ (edge ++ core) ++ closing ++ blanks ++ [':'] ++ rest =
      (spaces ++ opening ++ edge) ++ (core ++ ((closing ++ blanks) ++ ':' :: rest)) := by simp
  rw [hline, restOf, dropWhile_append hedge hcore]
  cases core with
  | nil =>
    have hall : ∀ c ∈ (spaces ++ opening ++ edge) ++ (closing ++ blanks), isEdge c = true := by
      intro c hc
      rcases List.mem_append.mp hc with hc | hc
      · exact hfront c hc
      · exact hback c hc
    rw [List.nil_append, ← List.append_assoc, dropWhile_append hall hcolon, List.length_nil,
      List.drop_zero, dropWhile_of_stops hcolon, List.tail_cons]
  | cons c core =>
    have hstop : Stops isEdge (c :: core ++ ((closing ++ blanks) ++ ':' :: rest)) :=
      stops_cons_iff.mpr (stops_cons_iff.mp hcore)
    rw [dropWhile_append hfront hstop, List.drop_left, dropWhile_append hback hcolon, List.tail_cons]

/-- **All spellings of a key end at the same colon.** -/
theorem Spelled.unique {key lead lead' rest rest' : List Char} {indent indent' : Nat}
    (h : Spelled key lead indent) (h' : Spelled key lead' indent') (heq : lead ++ rest = lead' ++ rest') :
    lead = lead' ∧ rest = rest' := by
  have hrest : rest = rest' := by
    rw [← restOf_eq h rest, heq, restOf_eq h' rest']
  subst hrest
  exact ⟨List.append_cancel_right heq, rfl⟩

/-! ### Readings -/

theorem mem_readingsAt_iff {key line : List Char} {indent : Nat} {r : Reading} :
    r ∈ readingsAt key line indent ↔ ∃ opening closing blanks rest, OptionalQuote opening ∧
      OptionalQuote closing ∧ (∀ c ∈ blanks, isIndent c = true) ∧
      line.drop indent = opening ++ key ++ closing ++ blanks ++ ':' :: rest ∧
      r = ⟨indent, (line.take indent ++ opening ++ key).length,
        line.take indent ++ opening ++ key ++ closing ++ blanks ++ [':'], rest⟩ := by
  simp only [readingsAt, List.mem_flatMap, Prod.exists]
  constructor
  · intro h
    obtain ⟨opening, text, hopen, h⟩ := h
    obtain ⟨hline, hopening⟩ := mem_optionalQuote_iff.mp hopen
    split at h
    · cases h
    rename_i behind hbehind
    rw [after?_eq_some_iff] at hbehind
    obtain ⟨⟨closing, tail⟩, hclose, hmatch⟩ := List.mem_filterMap.mp h
    obtain ⟨hsplit, hclosing⟩ := mem_optionalQuote_iff.mp hclose
    obtain ⟨blanks, rest, rfl, hblanks, hstop⟩ := exists_cut isIndent tail
    simp only [dropWhile_append hblanks hstop, takeWhile_append hblanks hstop] at hmatch
    split at hmatch
    · cases hmatch
      rename_i rest
      refine ⟨opening, closing, blanks, rest, hopening, hclosing, hblanks, ?_, rfl⟩
      rw [hline, hbehind, hsplit]
      simp
    · cases hmatch
  · intro h
    obtain ⟨opening, closing, blanks, rest, hopening, hclosing, hblanks, hline, rfl⟩ := h
    have hcolon : Stops isIndent (':' :: rest) := stops_cons_iff.mpr (by decide)
    refine ⟨opening, key ++ (closing ++ (blanks ++ ':' :: rest)), ?_, ?_⟩
    · exact mem_optionalQuote_iff.mpr ⟨by rw [hline]; simp, hopening⟩
    · rw [after?_eq_some_iff.mpr rfl]
      refine List.mem_filterMap.mpr ⟨(closing, blanks ++ ':' :: rest),
        mem_optionalQuote_iff.mpr ⟨rfl, hclosing⟩, ?_⟩
      simp only [dropWhile_append hblanks hcolon, takeWhile_append hblanks hcolon]

theorem mem_readings_iff {key line : List Char} {r : Reading} :
    r ∈ readings key line ↔ ∃ indent, indent ≤ Block.indentOf line ∧ r ∈ readingsAt key line indent := by
  simp [readings, List.mem_flatMap]

theorem isIndent_of_mem_take {line : List Char} {n : Nat} (h : n ≤ Block.indentOf line) :
    (∀ c ∈ line.take n, isIndent c = true) ∧ (line.take n).length = n := by
  have hcut : line.take n = (line.takeWhile isIndent).take n := by
    conv_lhs => rw [← List.takeWhile_append_dropWhile (p := isIndent) (l := line)]
    rw [List.take_append_of_le_length h]
  constructor
  · intro c hc
    rw [hcut] at hc
    exact List.mem_takeWhile_imp (List.mem_of_mem_take hc)
  · rw [hcut, List.length_take]
    exact Nat.min_eq_left h

/-- A reading spells the key at the front of its line. -/
theorem mem_readings {key line : List Char} {r : Reading} (h : r ∈ readings key line) :
    Spelled key r.lead r.indent ∧ line = r.lead ++ r.rest ∧ r.keyStop ≤ r.lead.length := by
  obtain ⟨indent, hindent, hr⟩ := mem_readings_iff.mp h
  obtain ⟨opening, closing, blanks, rest, hopening, hclosing, hblanks, hline, rfl⟩ := mem_readingsAt_iff.mp hr
  obtain ⟨hspaces, hlen⟩ := isIndent_of_mem_take hindent
  refine ⟨?_, ?_, ?_⟩
  · have hspelled : Spelled key (line.take indent ++ opening ++ key ++ closing ++ blanks ++ [':'])
        (line.take indent).length := ⟨hspaces, hopening, hclosing, hblanks⟩
    rwa [hlen] at hspelled
  · conv_lhs => rw [← List.take_append_drop indent line, hline]
    simp
  · simp only [List.length_append]
    omega

/-- Every spelling is read. -/
theorem exists_reading {key lead : List Char} {indent : Nat} (h : Spelled key lead indent) (rest : List Char) :
    ∃ r ∈ readings key (lead ++ rest), r.indent = indent ∧ r.lead = lead ∧ r.rest = rest := by
  obtain ⟨hspaces, hopening, hclosing, hblanks⟩ := h
  rename_i spaces opening closing blanks
  have hline : spaces ++ opening ++ key ++ closing ++ blanks ++ [':'] ++ rest =
      spaces ++ (opening ++ key ++ closing ++ blanks ++ ':' :: rest) := by simp
  have hindent : spaces.length ≤
      Block.indentOf (spaces ++ opening ++ key ++ closing ++ blanks ++ [':'] ++ rest) := by
    rw [hline, Block.indentOf, List.takeWhile_append_of_pos hspaces, List.length_append]
    omega
  refine ⟨_, mem_readings_iff.mpr ⟨spaces.length, hindent, mem_readingsAt_iff.mpr
    ⟨opening, closing, blanks, rest, hopening, hclosing, hblanks, ?_, rfl⟩⟩, rfl, ?_, rfl⟩
  · rw [hline, List.drop_left]
  · show (spaces ++ opening ++ key ++ closing ++ blanks ++ [':'] ++ rest).take spaces.length ++ opening ++ key
      ++ closing ++ blanks ++ [':'] = _
    rw [hline, List.take_left]

/-- The deepest readings come first. -/
theorem pairwise_readings (key line : List Char) :
    (readings key line).Pairwise fun r s => s.indent ≤ r.indent := by
  have hindent : ∀ indent, ∀ r ∈ readingsAt key line indent, r.indent = indent := by
    intro indent r hr
    obtain ⟨-, -, -, -, -, -, -, -, rfl⟩ := mem_readingsAt_iff.mp hr
    rfl
  rw [readings, List.pairwise_flatMap]
  constructor
  · intro indent _
    refine List.pairwise_of_forall_mem_list fun r hr s hs => ?_
    rw [hindent indent r hr, hindent indent s hs]
  · rw [List.pairwise_reverse]
    refine List.pairwise_lt_range.imp fun {i j} hlt r hr s hs => ?_
    rw [hindent j r hr, hindent i s hs]
    exact hlt.le

/-! ### The first reading -/

theorem indent_le_of_head {key line : List Char} {r s : Reading} (hr : (readings key line).head? = some r)
    (hs : s ∈ readings key line) : s.indent ≤ r.indent := by
  have hsorted := pairwise_readings key line
  obtain ⟨others, hlist⟩ := List.head?_eq_some_iff.mp hr
  rw [hlist] at hs hsorted
  rcases List.mem_cons.mp hs with rfl | hs
  · exact le_rfl
  · exact (List.pairwise_cons.mp hsorted).1 s hs

/-- The indentation of the first reading, what it takes up to the colon, and what is behind. -/
def frontOf? (key line : List Char) : Option (Nat × List Char × List Char) :=
  (readings key line).head?.map fun r => (r.indent, r.lead, r.rest)

/-- **The first reading is the deepest spelling.** -/
theorem frontOf?_eq_some_iff {key line lead rest : List Char} {indent : Nat} :
    frontOf? key line = some (indent, lead, rest) ↔ line = lead ++ rest ∧ Spelled key lead indent ∧
      ∀ other, Spelled key lead other → other ≤ indent := by
  constructor
  · intro h
    obtain ⟨r, hr, heq⟩ := Option.map_eq_some_iff.mp h
    cases heq
    obtain ⟨hspelled, hline, -⟩ := mem_readings (List.mem_of_head? hr)
    refine ⟨hline, hspelled, fun other hother => ?_⟩
    obtain ⟨s, hs, rfl, -, -⟩ := exists_reading hother r.rest
    rw [← hline] at hs
    exact indent_le_of_head hr hs
  · intro h
    obtain ⟨rfl, hspelled, hmax⟩ := h
    obtain ⟨s, hs, rfl, rfl, rfl⟩ := exists_reading hspelled rest
    obtain ⟨r, hr⟩ := Option.isSome_iff_exists.mp (List.isSome_head?.mpr (List.ne_nil_of_mem hs))
    obtain ⟨hspelled', hline, -⟩ := mem_readings (List.mem_of_head? hr)
    obtain ⟨hlead, hrest⟩ := hspelled.unique hspelled' hline
    rw [← hlead] at hspelled'
    have hindent : r.indent = s.indent := le_antisymm (hmax _ hspelled') (indent_le_of_head hr hs)
    rw [frontOf?, hr, Option.map_some, hindent, ← hlead, ← hrest]

theorem frontOf?_eq_none_iff {key line : List Char} :
    frontOf? key line = none ↔ ∀ lead rest indent, Spelled key lead indent → line ≠ lead ++ rest := by
  constructor
  · rintro h lead rest indent hspelled rfl
    obtain ⟨r, hr, -⟩ := exists_reading hspelled rest
    rw [frontOf?, Option.map_eq_none_iff, List.head?_eq_none_iff] at h
    rw [h] at hr
    cases hr
  · intro h
    by_contra hne
    obtain ⟨⟨indent, lead, rest⟩, hfront⟩ := Option.ne_none_iff_exists'.mp hne
    obtain ⟨hline, hspelled, -⟩ := frontOf?_eq_some_iff.mp hfront
    exact h lead rest indent hspelled hline

/-! ### Keys with values and keys with blocks -/

theorem scalar?_cons {c : Char} (hdouble : c ≠ '"') (hsingle : c ≠ '\'') (text : List Char) :
    scalar? (c :: text) = if isBlank c || c == '#' then none
      else (bareRest? text).map fun slot => { slot with value := c :: slot.value } := by
  unfold scalar?
  split <;> rename_i heq <;> cases heq
  · exact absurd rfl hdouble
  · exact absurd rfl hsingle
  · rfl

/-- The value behind a colon, at least one blank away. -/
def value? (rest : List Char) : Option Slot :=
  if (rest.takeWhile isIndent).isEmpty then none
  else (scalar? (rest.dropWhile isIndent)).map fun slot => slot.behind (rest.takeWhile isIndent)

theorem slot?_eq (r : Reading) : r.slot? = (value? r.rest).map fun slot => slot.behind r.lead := by
  unfold Reading.slot? value?
  generalize r.rest.takeWhile isIndent = blanks
  generalize scalar? (r.rest.dropWhile isIndent) = found
  cases blanks <;> cases found <;> simp [guard, Slot.behind]

/-- The readings of a line have one rest, so one of them is as good as the first. -/
theorem rest_of_head {key line : List Char} {r s : Reading} (hr : (readings key line).head? = some r)
    (hs : s ∈ readings key line) : s.rest = r.rest := by
  obtain ⟨hspelled, hline, -⟩ := mem_readings (List.mem_of_head? hr)
  obtain ⟨hspelled', hline', -⟩ := mem_readings hs
  exact (hspelled'.unique hspelled (hline'.symm.trans hline)).2

/-- **The value of a key is what stands behind its colon**, whatever reading is looked at. -/
theorem leaf?_eq (key line : List Char) :
    (leaf? key line).map (fun found => (found.1.indent, found.2)) = (frontOf? key line).bind fun front =>
      (value? front.2.2).map fun slot => (front.1, slot.behind front.2.1) := by
  unfold leaf? frontOf?
  cases hhead : (readings key line).head? with
  | none =>
    rw [List.head?_eq_none_iff.mp hhead]
    rfl
  | some r =>
    have hrest := fun s hs => rest_of_head hhead (s := s) hs
    obtain ⟨others, hlist⟩ := List.head?_eq_some_iff.mp hhead
    simp only [Option.map_some, Option.bind_some]
    cases hvalue : value? r.rest with
    | none =>
      have hnone : (readings key line).findSome? (fun r => r.slot?.map (r, ·)) = none := by
        rw [List.findSome?_eq_none_iff]
        intro s hs
        rw [slot?_eq, hrest s hs, hvalue]
        rfl
      rw [hnone]
      rfl
    | some slot =>
      rw [hlist, List.findSome?_cons, slot?_eq, hvalue]
      rfl

theorem parent?_eq (key line : List Char) :
    (parent? key line).map Reading.indent = (frontOf? key line).bind fun front =>
      if opensBlock front.2.2 then some front.1 else none := by
  unfold parent? frontOf?
  cases hhead : (readings key line).head? with
  | none =>
    rw [List.head?_eq_none_iff.mp hhead]
    rfl
  | some r =>
    have hrest := fun s hs => rest_of_head hhead (s := s) hs
    obtain ⟨others, hlist⟩ := List.head?_eq_some_iff.mp hhead
    simp only [Option.map_some, Option.bind_some]
    cases hopens : opensBlock r.rest with
    | false =>
      have hnone : (readings key line).find? (fun r => opensBlock r.rest) = none := by
        rw [List.find?_eq_none]
        intro s hs
        rw [hrest s hs, hopens]
        simp
      rw [hnone]
      rfl
    | true =>
      rw [hlist, List.find?_cons, hopens]
      rfl

end ManifestBump.Yaml

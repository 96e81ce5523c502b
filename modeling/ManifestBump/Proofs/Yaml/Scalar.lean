import ManifestBump.Proofs.Yaml.Key

/-! Values behind the colon of a key.

A value stands between quotes, or is the shortest stretch that leaves only blanks and a comment on its
line (`scalar?_cases`). What is read is a cut of the text: a lead, the value, and the rest
(`leafOf?_text`). -/
namespace ManifestBump.Yaml
open Text

/-! ### Trails -/

/-- A character that may not begin a trail. -/
def isSolid (c : Char) : Bool := !isIndent c && c != '#' && inLine c

theorem lineEnd?_of_inLine {c : Char} (h : inLine c = true) (text : List Char) : lineEnd? (c :: text) = none := by
  simp only [inLine, Bool.and_eq_true, bne_iff_ne] at h
  unfold lineEnd?
  split <;> rename_i heq <;> simp_all

theorem trail?_of_solid {c : Char} (h : isSolid c = true) (text : List Char) : trail? (c :: text) = none := by
  simp only [isSolid, Bool.and_eq_true, Bool.not_eq_true', bne_iff_ne] at h
  obtain ⟨⟨hindent, hhash⟩, hline⟩ := h
  simp [trail?, hindent, hhash, lineEnd?_of_inLine hline]

/-! ### Bare values -/

/-- A bare value ends where a trail begins. -/
theorem trail_of_bareRest? {text : List Char} {slot : Slot} (h : bareRest? text = some slot) :
    slot.lead = [] ∧ ∃ rest, text = slot.value ++ rest ∧ trail? rest = some slot.close := by
  induction text generalizing slot with
  | nil =>
    cases h
    exact ⟨rfl, [], rfl, rfl⟩
  | cons c text ih =>
    rw [bareRest?] at h
    split at h
    · rename_i trail htrail
      cases h
      exact ⟨rfl, c :: text, rfl, htrail⟩
    · split at h
      · obtain ⟨slot', hslot', rfl⟩ := Option.map_eq_some_iff.mp h
        obtain ⟨hlead, rest, htext, htrail⟩ := ih hslot'
        exact ⟨hlead, rest, by rw [htext, List.cons_append], htrail⟩
      · cases h

theorem inLine_of_bareRest? {text : List Char} {slot : Slot} (h : bareRest? text = some slot) :
    ∀ c ∈ slot.value, inLine c = true := by
  induction text generalizing slot with
  | nil =>
    cases h
    simp
  | cons c text ih =>
    rw [bareRest?] at h
    split at h
    · cases h
      simp
    · split at h
      · rename_i hc
        obtain ⟨slot', hslot', rfl⟩ := Option.map_eq_some_iff.mp h
        simp only [Bool.and_eq_true] at hc
        exact List.forall_mem_cons.mpr ⟨hc.1.1, ih hslot'⟩
      · cases h

/-- A stretch none of whose ends begins a trail is taken whole. -/
theorem bareRest?_append_trail {value rest trail : List Char}
    (hchars : ∀ c ∈ value, inLine c = true ∧ isQuote c = false)
    (hends : ∀ tail, tail ≠ [] → tail <:+ value → trail? (tail ++ rest) = none)
    (htrail : trail? rest = some trail) : bareRest? (value ++ rest) = some ⟨[], value, trail⟩ := by
  induction value with
  | nil =>
    cases rest with
    | nil =>
      cases htrail
      rfl
    | cons c rest => rw [List.nil_append, bareRest?, htrail]
  | cons c value ih =>
    obtain ⟨hline, hquote⟩ := hchars c List.mem_cons_self
    have hnone := hends (c :: value) (by simp) (List.suffix_refl _)
    have hrest := ih (fun d hd => hchars d (List.mem_cons_of_mem _ hd))
      fun tail hne htail => hends tail hne (htail.trans (List.suffix_cons c value))
    simp only [isQuote, Bool.or_eq_false_iff, beq_eq_false_iff_ne] at hquote
    rw [List.cons_append] at hnone ⊢
    simp [bareRest?, hnone, hline, hquote, hrest]

/-! ### Quoted values -/

/-- A character that may stand between these quotes. -/
def isInner (quote c : Char) : Bool := c != quote && inLine c

theorem quoted?_eq_some_iff {quote : Char} {text : List Char} {slot : Slot} :
    quoted? quote text = some slot ↔ ∃ value rest trail, text = value ++ quote :: rest ∧
      (∀ c ∈ value, isInner quote c = true) ∧ trail? rest = some trail ∧
      slot = ⟨[quote], value, quote :: trail⟩ := by
  have hquote : isInner quote quote = false := by simp [isInner]
  constructor
  · intro h
    obtain ⟨value, tail, rfl, hvalue, htail⟩ := exists_cut (isInner quote) text
    have hinner : (fun c => c != quote && inLine c) = isInner quote := rfl
    simp only [quoted?, hinner, dropWhile_append hvalue htail, takeWhile_append hvalue htail] at h
    split at h
    · cases h
    · rename_i c rest
      split at h
      · rename_i heq
        subst heq
        obtain ⟨trail, htrail, rfl⟩ := Option.map_eq_some_iff.mp h
        exact ⟨value, rest, trail, rfl, hvalue, htrail, rfl⟩
      · cases h
  · intro h
    obtain ⟨value, rest, trail, rfl, hvalue, htrail, rfl⟩ := h
    have hinner : (fun c => c != quote && inLine c) = isInner quote := rfl
    have hstop : Stops (isInner quote) (quote :: rest) := stops_cons_iff.mpr hquote
    simp only [quoted?, hinner, dropWhile_append hvalue hstop, takeWhile_append hvalue hstop, if_true, htrail,
      Option.map_some]

/-! ### Values -/

/-- The forms of a value, and what is read of them. -/
inductive Scalar : (text : List Char) → Slot → Prop where
  | quoted {quote : Char} {value rest trail : List Char} (hquote : isQuote quote = true)
    (hvalue : ∀ c ∈ value, isInner quote c = true) (htrail : trail? rest = some trail) :
    Scalar (quote :: (value ++ quote :: rest)) ⟨[quote], value, quote :: trail⟩
  | bare {c : Char} {value rest trail : List Char} (hquote : isQuote c = false) (hblank : isBlank c = false)
    (hhash : c ≠ '#') (htrail : trail? rest = some trail) :
    Scalar (c :: (value ++ rest)) ⟨[], c :: value, trail⟩

theorem isQuote_eq_true_iff {c : Char} : isQuote c = true ↔ c = '"' ∨ c = '\'' := by simp [isQuote]

theorem scalar?_quote {quote : Char} (h : isQuote quote = true) (text : List Char) :
    scalar? (quote :: text) = quoted? quote text := by
  rcases isQuote_eq_true_iff.mp h with rfl | rfl <;> rfl

theorem scalar?_bare {c : Char} (hquote : isQuote c = false) (hblank : isBlank c = false) (hhash : c ≠ '#')
    (text : List Char) :
    scalar? (c :: text) = (bareRest? text).map fun slot => { slot with value := c :: slot.value } := by
  simp only [isQuote, Bool.or_eq_false_iff, beq_eq_false_iff_ne] at hquote
  rw [scalar?_cons hquote.1 hquote.2, if_neg (by simp [hblank, hhash])]

/-- **What is read of a value.** -/
theorem scalar?_cases {text : List Char} {slot : Slot} (h : scalar? text = some slot) : Scalar text slot := by
  cases text with
  | nil => cases h
  | cons c text =>
    cases hquote : isQuote c with
    | true =>
      rw [scalar?_quote hquote] at h
      obtain ⟨value, rest, trail, rfl, hvalue, htrail, rfl⟩ := quoted?_eq_some_iff.mp h
      exact .quoted hquote hvalue htrail
    | false =>
      have hplain := hquote
      simp only [isQuote, Bool.or_eq_false_iff, beq_eq_false_iff_ne] at hplain
      rw [scalar?_cons hplain.1 hplain.2] at h
      split at h
      · cases h
      · rename_i hfirst
        simp only [Bool.or_eq_true, beq_iff_eq, not_or, Bool.not_eq_true] at hfirst
        obtain ⟨slot', hslot', rfl⟩ := Option.map_eq_some_iff.mp h
        obtain ⟨hlead, rest, htext, htrail⟩ := trail_of_bareRest? hslot'
        obtain ⟨lead, value, close⟩ := slot'
        obtain rfl : lead = [] := hlead
        rw [htext]
        exact .bare hquote hfirst.1 hfirst.2 htrail

theorem inLine_of_isIndent {c : Char} (h : isIndent c = true) : inLine c = true := by
  simp only [isIndent, Bool.or_eq_true, beq_iff_eq] at h
  rcases h with rfl | rfl <;> rfl

theorem inLine_of_not_isBlank {c : Char} (h : isBlank c = false) : inLine c = true := by
  have hfeed : c ≠ '\n' := by
    rintro rfl
    cases h
  have hreturn : c ≠ '\r' := by
    rintro rfl
    cases h
  simp [inLine, hfeed, hreturn]

/-- A value lies in its line, and so does what leads to it. -/
theorem inLine_of_scalar? {text : List Char} {slot : Slot} (h : scalar? text = some slot) :
    ∀ c ∈ slot.lead ++ slot.value, inLine c = true := by
  have hcases := scalar?_cases h
  cases hcases with
  | @quoted quote value rest trail hquote hvalue htrail =>
    have hline : inLine quote = true := by rcases isQuote_eq_true_iff.mp hquote with rfl | rfl <;> rfl
    refine List.forall_mem_cons.mpr ⟨hline, fun c hc => ?_⟩
    have hinner := hvalue c hc
    simp only [isInner, Bool.and_eq_true] at hinner
    exact hinner.2
  | @bare c value rest trail hquote hblank hhash htrail =>
    rw [scalar?_bare hquote hblank hhash] at h
    obtain ⟨slot', hslot', heq⟩ := Option.map_eq_some_iff.mp h
    obtain ⟨-, hvalue, -⟩ := Slot.mk.injEq .. ▸ heq
    obtain ⟨-, rfl⟩ := List.cons.inj hvalue
    exact List.forall_mem_cons.mpr ⟨inLine_of_not_isBlank hblank, inLine_of_bareRest? hslot'⟩

theorem Scalar.text {text : List Char} {slot : Slot} (h : Scalar text slot) :
    ∃ rest, text = slot.lead ++ slot.value ++ rest := by
  cases h with
  | quoted hquote hvalue htrail => exact ⟨_, rfl⟩
  | bare hquote hblank hhash htrail => exact ⟨_, rfl⟩

/-! ### Values of keys -/

theorem value?_eq_some_iff {text : List Char} {slot : Slot} :
    value? text = some slot ↔ ∃ blanks rest inner, text = blanks ++ rest ∧ blanks ≠ [] ∧
      (∀ c ∈ blanks, isIndent c = true) ∧ Stops isIndent rest ∧ scalar? rest = some inner ∧
      slot = inner.behind blanks := by
  constructor
  · intro h
    obtain ⟨blanks, rest, rfl, hblanks, hrest⟩ := exists_cut isIndent text
    rw [value?, takeWhile_append hblanks hrest, dropWhile_append hblanks hrest] at h
    split at h
    · cases h
    · rename_i hne
      obtain ⟨inner, hinner, rfl⟩ := Option.map_eq_some_iff.mp h
      exact ⟨blanks, rest, inner, rfl, by simpa using hne, hblanks, hrest, hinner, rfl⟩
  · intro h
    obtain ⟨blanks, rest, inner, rfl, hne, hblanks, hrest, hinner, rfl⟩ := h
    rw [value?, takeWhile_append hblanks hrest, dropWhile_append hblanks hrest, if_neg (by simpa using hne),
      hinner, Option.map_some]

/-- What leads to the value of a key begins with a blank, and both lie in their line. -/
theorem inLine_of_value? {text : List Char} {slot : Slot} (h : value? text = some slot) :
    (∃ c lead, slot.lead = c :: lead ∧ isIndent c = true) ∧ ∀ c ∈ slot.lead ++ slot.value, inLine c = true := by
  obtain ⟨blanks, rest, inner, rfl, hne, hblanks, -, hinner, rfl⟩ := value?_eq_some_iff.mp h
  obtain ⟨c, more, rfl⟩ := List.exists_cons_of_ne_nil hne
  refine ⟨⟨c, more ++ inner.lead, rfl, hblanks c List.mem_cons_self⟩, fun d hd => ?_⟩
  rw [Slot.behind, List.append_assoc] at hd
  rcases List.mem_append.mp hd with hd | hd
  · exact inLine_of_isIndent (hblanks d hd)
  · exact inLine_of_scalar? hinner d hd

/-- The value behind a colon is a stretch of what stands there. -/
theorem value?_text {text : List Char} {slot : Slot} (h : value? text = some slot) :
    ∃ rest, text = slot.lead ++ slot.value ++ rest := by
  obtain ⟨blanks, tail, inner, rfl, -, -, -, hinner, rfl⟩ := value?_eq_some_iff.mp h
  obtain ⟨rest, rfl⟩ := (scalar?_cases hinner).text
  exact ⟨rest, by simp [Slot.behind]⟩

/-- The indentation of a key with a value, and what its value takes from the line. -/
def leafOf? (key line : List Char) : Option (Nat × Slot) :=
  (leaf? key line).map fun found => (found.1.indent, found.2)

/-- The indentation of a key that opens a block. -/
def parentOf? (key line : List Char) : Option Nat := (parent? key line).map Reading.indent

theorem leafOf?_eq_some_iff {key line : List Char} {indent : Nat} {slot : Slot} :
    leafOf? key line = some (indent, slot) ↔ ∃ lead rest inner, frontOf? key line = some (indent, lead, rest) ∧
      value? rest = some inner ∧ slot = inner.behind lead := by
  rw [leafOf?, leaf?_eq]
  constructor
  · intro h
    obtain ⟨⟨indent', lead, rest⟩, hfront, h⟩ := Option.bind_eq_some_iff.mp h
    obtain ⟨inner, hinner, heq⟩ := Option.map_eq_some_iff.mp h
    cases heq
    exact ⟨lead, rest, inner, hfront, hinner, rfl⟩
  · intro h
    obtain ⟨lead, rest, inner, hfront, hinner, rfl⟩ := h
    rw [hfront, Option.bind_some, hinner]
    rfl

theorem parentOf?_eq_some_iff {key line : List Char} {indent : Nat} :
    parentOf? key line = some indent ↔ ∃ lead rest, frontOf? key line = some (indent, lead, rest) ∧
      opensBlock rest = true := by
  rw [parentOf?, parent?_eq]
  constructor
  · intro h
    obtain ⟨⟨indent', lead, rest⟩, hfront, h⟩ := Option.bind_eq_some_iff.mp h
    split at h
    · rename_i hopens
      cases h
      exact ⟨lead, rest, hfront, hopens⟩
    · cases h
  · intro h
    obtain ⟨lead, rest, hfront, hopens⟩ := h
    simp only [hfront, Option.bind_some, hopens, if_true]

/-- **The value of a key is a stretch of its line.** -/
theorem leafOf?_text {key line : List Char} {indent : Nat} {slot : Slot}
    (h : leafOf? key line = some (indent, slot)) : ∃ rest, line = slot.lead ++ slot.value ++ rest := by
  obtain ⟨lead, rest, inner, hfront, hinner, rfl⟩ := leafOf?_eq_some_iff.mp h
  obtain ⟨tail, rfl⟩ := value?_text hinner
  obtain ⟨rfl, -, -⟩ := frontOf?_eq_some_iff.mp hfront
  exact ⟨tail, by simp [Slot.behind]⟩

end ManifestBump.Yaml

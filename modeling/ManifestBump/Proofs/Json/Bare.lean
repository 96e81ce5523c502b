import ManifestBump.Proofs.Json.Edit
import ManifestBump.Proofs.Json.Idle

/-! A value without quotes exchanged for another one.

Bare characters are no structure, and neither are they in a literal, but for a backslash or an asterisk at their end
(`Sealed`). So the outline is only moved (`scan_bare`). The quote nearest to the value closes its own key, and no key
begins there (`Named.not_across`), so the value is found again in its place (`find?_bare`). -/
namespace ManifestBump.Json
open Text

/-! ### The outline -/

/-- A text behind which a literal goes on as in front of it. -/
structure Sealed (text : List Char) : Prop where
  hides : hidesNext text = false
  star : text.getLast? ≠ some '*'

theorem isQuiet_of_isBare {c : Char} (h : isBare c = true) : Outline.isQuiet c = true := by
  simp [Outline.isQuiet, ne_of_isBare h (d := '"') (by decide), ne_of_isBare h (d := '\'') (by decide),
    ne_of_isBare h (d := '/') (by decide), ne_of_isBare h (d := '\x7b') (by decide),
    ne_of_isBare h (d := '\x7d') (by decide)]

theorem Bare.not_mem {text : List Char} (h : Bare text) {c : Char} (hc : isBare c = false) : c ∉ text :=
  fun hmem => ne_of_isBare (h.chars c hmem) hc rfl

/-- Bare characters are passed over. -/
theorem scanFrom_bare {P : Nat → Prop} {text : List Char} (h : Bare text) {mode : Outline.Mode} (hmode : mode.Within P)
    (hsealed : mode ≠ .code → Sealed text) (n d : Nat) (rest : List Char) :
    Outline.scanFrom mode n d (text ++ rest) = Outline.scanFrom mode (n + text.length) d rest := by
  cases mode with
  | code => exact Outline.scanFrom_quiet (fun c hc => isQuiet_of_isBare (h.chars c hc)) n d rest
  | string quote s =>
    have hquote := isBare_of_isQuote (isQuote_iff.mpr hmode.1)
    refine scanFrom_in_string (fun c hc => ?_) (hsealed (by rintro ⟨⟩)).hides s n d rest
    exact ⟨ne_of_isBare (h.chars c hc) hquote, ne_of_isBare (h.chars c hc) (by decide)⟩
  | lineComment s => exact scanFrom_in_lineComment (h.not_mem (by decide)) s n d rest
  | blockComment s =>
    exact scanFrom_in_blockComment (h.not_mem (by decide)) (hsealed (by rintro ⟨⟩)).star s n d rest

section Edits
variable {e : Edit} (hold : Bare e.old) (hnew : Bare e.new)
include hold hnew

/-- **The outline is only moved** when one run of bare characters takes the place of another one. -/
theorem scan_bare (hlast : ∀ c ∈ e.front.getLast?, Outline.isDouble c = false)
    (hliteral : (Outline.scan e.before).inLiteral e.front.length = true → Sealed e.old ∧ Sealed e.new) :
    (Outline.scan e.before).Within e.Outside ∧
      Outline.scan e.after = (Outline.scan e.before).relabel e.shift := by
  obtain ⟨o, mode, d, ho, hmode, hscan⟩ :=
    Outline.scanFrom_append .code 0 0 e.front (by trivial) hlast
  simp only [Nat.zero_add] at ho hmode hscan
  have hsealed : mode ≠ .code → Sealed e.old ∧ Sealed e.new := by
    intro hcode
    refine hliteral ?_
    obtain ⟨s, hs⟩ : ∃ s, mode.start? = some s := by
      cases mode with
      | code => exact absurd rfl hcode
      | string | lineComment | blockComment => exact ⟨_, rfl⟩
    obtain ⟨c, others, hfirst⟩ := List.exists_cons_of_ne_nil hold.ne_nil
    have hfeed : c ≠ '\n' := ne_of_isBare (hold.chars c (by simp [hfirst])) (by decide)
    have hinside := Outline.inLiteral_of_start? (d := d) hs (hmode.start hs) hfeed (others ++ e.back)
    rw [Edit.before, List.append_assoc, Outline.scan, hscan, hfirst]
    exact List.any_append.trans (Bool.or_eq_true_iff.mpr (.inr hinside))
  exact scan_passed ⟨hold.ne_nil, hnew.ne_nil⟩ ho hmode hscan
    (scanFrom_bare hold hmode (fun hcode => (hsealed hcode).1) _ _)
    (scanFrom_bare hnew hmode (fun hcode => (hsealed hcode).2) _ _)

end Edits

/-! ### Keys near a value -/

/-- The key of a value without quotes stands in front of it, up to its colon and the space behind that. -/
structure Named (e : Edit) (key : List Char) (n : Nat) : Prop where
  place : n ≤ e.front.length
  starts : (Outline.scan e.before).startsLiteral n = true
  front : ∃ opening closing before behind, isQuote opening = true ∧ isQuote closing = true ∧
    (∀ c ∈ before, isBlank c = true) ∧ (∀ c ∈ behind, isBlank c = true) ∧
    e.front.drop n = written opening key closing before behind

/-- A value without a quote in front of it is a run of bare characters behind its key. -/
theorem named_of_find? {e : Edit} {path : KeyPath} {found : Occurrence} (h : find? e.before path = some found)
    (hvalue : found.value = e.oldSpan) (hunquoted : ∀ c ∈ e.front.getLast?, isQuote c = false) :
    Bare e.old ∧ ∃ n, Named e path.leaf.toList n := by
  obtain ⟨n, stop, slot, -, hstarts, hslot, rfl⟩ := leaf_of_findIn h
  obtain ⟨hle, -, -, hlead, hread⟩ := leaf?_at_value hslot hvalue
  obtain ⟨lead, rest, inner, hkey, hinner, rfl⟩ := leaf?_eq_some_iff.mp hslot
  rcases scalar?_eq_some_iff.mp hinner with ⟨quote, tail, hquote, -, hquoted⟩ | ⟨bare, behind, hne, hbare, -, -, rfl⟩
  · obtain ⟨value, others, -, -, rfl⟩ := quoted?_eq_some_iff.mp hquoted
    have hlast : e.front.getLast? = some quote := by
      rw [← List.take_append_drop n e.front, ← hlead]
      simp [Slot.behind]
    have := hunquoted quote hlast
    rw [hquote] at this
    cases this
  · obtain ⟨opening, closing, before, gap, hopening, hclosing, hbefore, hgap, -, rfl, -⟩ :=
      afterKey?_eq_some_iff.mp hkey
    refine ⟨hread ▸ ⟨hne, hbare⟩, n, hle, hstarts, opening, closing, before, gap, hopening, hclosing, hbefore, hgap, ?_⟩
    simpa [Slot.behind] using hlead.symm

namespace Named
variable {e : Edit} {own : List Char} {m n : Nat} (h : Named e own m)
include h

/-- The last quote in front of the value is the one behind its key. -/
theorem place_of_quote (hle : n ≤ e.front.length) {quote : Char} {rest : List Char} (hquote : isQuote quote = true)
    (hrest : Unquoted rest) (hdrop : e.front.drop n = quote :: rest) : n = m + 1 + own.length := by
  obtain ⟨opening, closing, before, behind, -, hclosing, hbefore, hbehind, hfront⟩ := h.front
  have hgap : Unquoted (before ++ ':' :: behind) := by
    intro c hc
    rcases List.mem_append.mp hc with hc | hc
    · exact isQuote_of_isBlank (hbefore c hc)
    rcases List.mem_cons.mp hc with rfl | hc
    · rfl
    · exact isQuote_of_isBlank (hbehind c hc)
  have hsame : e.front.take m ++ opening :: own ++ closing :: (before ++ ':' :: behind) =
      e.front.take n ++ quote :: rest :=
    calc
      _ = e.front.take m ++ e.front.drop m := by rw [hfront]; simp [written]
      _ = e.front.take n ++ e.front.drop n := by rw [List.take_append_drop, List.take_append_drop]
      _ = _ := by rw [hdrop]
  obtain ⟨hplace, -, -⟩ := last_unique hclosing hgap hquote hrest hsame
  have hlen := congrArg List.length hplace
  rw [List.length_append, List.length_take_of_le h.place, List.length_cons, List.length_take_of_le hle] at hlen
  omega

/-- Behind the last quote in front of the value there is more than space. -/
theorem drop_ne {front blanks : List Char} {quote : Char} (hquote : isQuote quote = true)
    (hblanks : ∀ c ∈ blanks, isBlank c = true) : e.front.drop n ≠ front ++ quote :: blanks := by
  intro hdrop
  obtain ⟨opening, closing, before, behind, -, -, -, hbehind, hfront⟩ := h.front
  have hsame : e.front.take m ++ (opening :: own ++ closing :: before) ++ ':' :: behind =
      e.front.take n ++ front ++ quote :: blanks :=
    calc
      _ = e.front.take m ++ e.front.drop m := by rw [hfront]; simp [written]
      _ = e.front.take n ++ e.front.drop n := by rw [List.take_append_drop, List.take_append_drop]
      _ = _ := by rw [hdrop, List.append_assoc]
  obtain ⟨-, rfl, -⟩ := last_unique (p := fun c => !isBlank c) (by decide) (by simpa using hbehind)
    (by simp [isBlank_of_isQuote hquote]) (by simpa using hblanks) hsame
  cases hquote

/-- No literal begins at the quote behind the key. -/
theorem startsLiteral_closing (hown : ∀ c ∈ own, isQuote c = false ∧ c ≠ '\n') :
    (Outline.scan e.before).startsLiteral (m + 1 + own.length) = false := by
  obtain ⟨opening, closing, before, behind, hopening, hclosing, -, -, hfront⟩ := h.front
  have htext : e.before.drop m = opening :: (own ++ closing :: (before ++ ':' :: behind ++ e.old ++ e.back)) := by
    rw [Edit.before, Edit.drop_front h.place, hfront]
    simp [written]
  refine Json.startsLiteral_closing h.starts htext hopening hclosing fun c hc => ⟨?_, (hown c hc).2⟩
  rintro rfl
  have := (hown c hc).1
  rw [hopening] at this
  cases this

/-- **No key is read across the value**: it would begin at the last quote in front of the value, or end there. -/
theorem not_across (hle : n ≤ e.front.length) (hown : ∀ c ∈ own, isQuote c = false ∧ c ≠ '\n')
    {key value : List Char} (hkey : Unquoted key) (hstarts : (Outline.scan e.before).startsLiteral n = true) :
    ¬Across key (e.front.drop n) value := by
  rintro (⟨hquote, hdrop, rfl⟩ | ⟨hquote, hblanks, hdrop, -⟩)
  · obtain rfl := h.place_of_quote hle hquote (fun c hc => hkey c (by simp [hc])) hdrop
    rw [h.startsLiteral_closing hown] at hstarts
    cases hstarts
  · exact h.drop_ne hquote hblanks hdrop

end Named

/-- **Where a value without quotes was found, a run of bare characters is found** once it stands there, by any path
whose keys hold neither quotes nor line feeds. Inside of a literal, neither may hide what is behind it. -/
theorem find?_bare {e : Edit} {path : KeyPath}
    (hkeys : ∀ key ∈ path.segments, ∀ c ∈ key.toList, isQuote c = false ∧ c ≠ '\n') (hnew : Bare e.new)
    (hunquoted : ∀ c ∈ e.front.getLast?, isQuote c = false)
    (hliteral : (Outline.scan e.before).inLiteral e.front.length = true → Sealed e.old ∧ Sealed e.new)
    {found : Occurrence} (h : find? e.before path = some found) (hvalue : found.value = e.oldSpan) :
    ∃ found', find? e.after path = some found' ∧ found'.value = e.newSpan := by
  obtain ⟨hold, m, hnamed⟩ := named_of_find? h hvalue hunquoted
  obtain ⟨hleaf, -⟩ := KeyPath.forall_toList (P := fun name => ∀ c ∈ name, isQuote c = false ∧ c ≠ '\n') hkeys
  refine find?_carried hold hnew (scan_bare hold hnew (isDouble_getLast?_front h hvalue) hliteral) ?_ h hvalue
  intro key hkey n depth hle hplace
  exact hnamed.not_across hle hleaf (fun c hc => (hkeys key hkey c hc).1) (Bool.and_eq_true_iff.mp hplace).1

end ManifestBump.Json

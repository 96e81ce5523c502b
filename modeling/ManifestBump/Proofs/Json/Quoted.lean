import ManifestBump.Proofs.Json.Edit
import ManifestBump.Proofs.Json.Scope

/-! A value between quotes exchanged for another one.

The outline in front of the value stays as it is, whatever the value is (`Frame.Stable`). An object that opens there
closes there, or behind the value (`Frame.Reaches`), and how far behind depends on nothing but whether the value hides its
closing quote (`Frame.stable`). So the lookup comes to the same key, unless a string in front of it begins to read like
a key with a value once the object goes on further (`Undisguised`): then the new value is found where the old one was
(`find?_quoted`). -/
namespace ManifestBump.Json
open Text

/-! ### Keys in front of a place -/

/-- What leads to a value does not end with a quote. -/
theorem isQuote_of_lead {key text lead rest : List Char} (h : afterKey? key text = some (lead, rest)) {c : Char}
    (hc : lead.getLast? = some c) : isQuote c = false := by
  obtain ⟨opening, closing, before, behind, -, -, -, hbehind, -, rfl, -⟩ := afterKey?_eq_some_iff.mp h
  rw [written, List.getLast?_append_of_ne_nil _ (List.cons_ne_nil _ _)] at hc
  rcases List.mem_cons.mp (List.mem_of_getLast? hc) with rfl | hmem
  · rfl
  · exact isQuote_of_isBlank (hbehind c hmem)

/-- A value with a quote in front of it is one between quotes. -/
theorem leaf?_quoted {key text : List Char} {slot : Slot} {quote : Char} (hquote : isQuote quote = true)
    (h : leaf? key text = some slot) (hlast : slot.lead.getLast? = some quote) :
    ∃ lead rest, slot.lead = lead ++ [quote] ∧ (∀ c ∈ slot.value, c ≠ quote ∧ c ≠ '\n') ∧
      afterKey? key text = some (lead, quote :: (slot.value ++ quote :: rest)) := by
  obtain ⟨lead, rest, inner, hkey, hinner, rfl⟩ := leaf?_eq_some_iff.mp h
  rcases scalar?_eq_some_iff.mp hinner with ⟨c, tail, -, rfl, hquoted⟩ | ⟨bare, others, -, -, -, -, rfl⟩
  · obtain ⟨value, rest, hvalue, rfl, rfl⟩ := quoted?_eq_some_iff.mp hquoted
    obtain rfl : c = quote := by simpa [Slot.behind] using hlast
    exact ⟨lead, rest, rfl, fun d hd => by simpa using hvalue d hd, hkey⟩
  · rw [Slot.behind, List.append_nil] at hlast
    rw [isQuote_of_lead hkey hlast] at hquote
    cases hquote

section Quoted
variable {quote : Char} {x tail : List Char}

/-- A value goes on over text that can end it in no way. -/
theorem quoted?_passed (h : ∀ c ∈ x, (c != quote && c != '\n') = true) (tail : List Char) :
    quoted? quote (x ++ tail) = (quoted? quote tail).map fun slot => { slot with value := x ++ slot.value } := by
  simp only [quoted?, List.dropWhile_append_of_pos h, List.takeWhile_append_of_pos h]
  cases tail.dropWhile fun c => c != quote && c != '\n' with
  | nil => rfl
  | cons c rest =>
    by_cases hc : c = quote
    · simp [hc]
    · simp [hc]

/-- A value goes on over all of a text, or the text alone tells whether it ends. -/
theorem quoted?_append (quote : Char) (x : List Char) :
    (∀ c ∈ x, (c != quote && c != '\n') = true) ∨
      ∀ tail other, quoted? quote (x ++ tail) ≠ none → quoted? quote (x ++ other) ≠ none := by
  obtain ⟨run, rest, rfl, hrun, hstop⟩ := exists_cut (fun c => c != quote && c != '\n') x
  cases rest with
  | nil => exact .inl (by simpa using hrun)
  | cons c rest =>
    refine .inr fun tail other => ?_
    simp only [List.append_assoc, List.cons_append, quoted?_passed hrun, Ne, Option.map_eq_none_iff]
    have hc := stops_cons_iff.mp hstop
    simp only [quoted?, List.dropWhile_cons, hc]
    by_cases heq : c = quote <;> simp [heq]

/-- In front of a value that ends, text without line feeds leaves a value that ends. -/
theorem quoted?_behind (hx : '\n' ∉ x) (h : quoted? quote tail ≠ none) : quoted? quote (x ++ tail) ≠ none := by
  obtain ⟨run, rest, rfl, hrun, hstop⟩ := exists_cut (fun c => c != quote && c != '\n') x
  cases rest with
  | nil => simpa [quoted?_passed hrun] using h
  | cons c rest =>
    have hfeed : c ≠ '\n' := fun heq => hx (by simp [heq])
    obtain rfl : c = quote := by simpa [hfeed] using stops_cons_iff.mp hstop
    have hread : quoted? c (run ++ c :: rest ++ tail) = some ⟨[c], run, [c]⟩ :=
      quoted?_eq_some_iff.mpr ⟨run, rest ++ tail, hrun, by simp, rfl⟩
    rw [hread]
    simp

/-- A value that goes on over another one in quotes ends behind that one, or in it, whatever it is. -/
theorem quoted?_over {c : Char} {v w rest : List Char} (hx : ∀ d ∈ x ++ [quote], (d != c && d != '\n') = true)
    (hv : '\n' ∉ v) (hw : ∀ d ∈ w, (d != c && d != '\n') = true)
    (h : quoted? c (x ++ [quote] ++ (w ++ [quote] ++ rest)) ≠ none) :
    quoted? c (x ++ [quote] ++ (v ++ [quote] ++ rest)) ≠ none := by
  have hquote := hx quote (by simp)
  have hw' : ∀ d ∈ w ++ [quote], (d != c && d != '\n') = true :=
    List.forall_mem_append.mpr ⟨hw, fun d hd => by rwa [List.mem_singleton.mp hd]⟩
  have hv' : '\n' ∉ v ++ [quote] := by
    intro hmem
    rcases List.mem_append.mp hmem with hmem | hmem
    · exact hv hmem
    · rw [← List.mem_singleton.mp hmem] at hquote
      simp at hquote
  rw [quoted?_passed hx, Ne, Option.map_eq_none_iff, quoted?_passed hw', Option.map_eq_none_iff] at h
  rw [quoted?_passed hx, Ne, Option.map_eq_none_iff]
  exact quoted?_behind hv' h

end Quoted

/-- No string in front of a place reads like a key with a value between quotes: where a literal begins with the key,
another one begins with the quote of its value. -/
def Undisguised (text key : List Char) (place : Nat) : Prop :=
  ∀ m < place, (Outline.scan text).startsLiteral m = true → ∀ read ∈ afterKey? key (text.drop m),
    read.2.head?.any isQuote = true → (Outline.scan text).startsLiteral (m + read.1.length) = true

instance (text key : List Char) (place : Nat) : Decidable (Undisguised text key place) :=
  inferInstanceAs (Decidable (∀ m < place, _ → ∀ read ∈ afterKey? key (text.drop m), _))

/-! ### Texts around a value -/

/-- What stands around a value in quotes. -/
structure Frame where
  front : List Char
  quote : Char
  back : List Char

namespace Frame

/-- The text with a value. -/
def text (f : Frame) (value : List Char) : List Char := f.front ++ f.quote :: (value ++ f.quote :: f.back)

/-- Where the quote in front of the value stands. -/
def place (f : Frame) : Nat := f.front.length

/-- Where the text goes on behind the value and its quotes. -/
def behind (f : Frame) (value : List Char) : Nat := f.place + 2 + value.length

/-- Where the value lies. -/
def span (f : Frame) (value : List Char) : Span := ⟨f.place + 1, f.place + 1 + value.length⟩

/-- The frame with less text behind the value. -/
def cut (f : Frame) (n : Nat) : Frame := { f with back := f.back.take n }

/-- A value that can stand between the quotes. -/
def Holds (f : Frame) (value : List Char) : Prop := ∀ c ∈ value, c ≠ f.quote ∧ c ≠ '\n'

/-- The outline of the text with a value. -/
abbrev outline (f : Frame) (value : List Char) : Outline := Outline.scan (f.text value)

variable {f : Frame} {v w : List Char} {n stop : Nat}

theorem length_text (f : Frame) (value : List Char) : (f.text value).length = f.behind value + f.back.length := by
  simp only [text, behind, place, List.length_append, List.length_cons]
  omega

theorem length_drop_front (f : Frame) (n : Nat) : (f.front.drop n).length = f.place - n := List.length_drop

theorem take_front (h : stop ≤ f.place) (value : List Char) : (f.text value).take stop = f.front.take stop :=
  List.take_append_of_le_length h

theorem take_behind (f : Frame) (value : List Char) (k : Nat) :
    (f.text value).take (f.behind value + k) = (f.cut k).text value := by
  have hsplit : f.text value = (f.front ++ [f.quote] ++ value ++ [f.quote]) ++ f.back := by simp [text]
  have hlen : f.behind value + k = (f.front ++ [f.quote] ++ value ++ [f.quote]).length + k := by
    simp only [behind, place, List.length_append, List.length_singleton]
    omega
  rw [hsplit, hlen, List.take_length_add_append]
  simp [text, cut]

theorem drop_text (h : n ≤ f.place) (value : List Char) :
    (f.text value).drop n = f.front.drop n ++ f.quote :: (value ++ f.quote :: f.back) :=
  List.drop_append_of_le_length h

theorem drop_take_behind (h : n ≤ f.place) (value : List Char) (k : Nat) :
    ((f.text value).take (f.behind value + k)).drop n =
      f.front.drop n ++ f.quote :: (value ++ f.quote :: f.back.take k) := by
  rw [take_behind]
  exact drop_text (f := f.cut k) h value

/-! ### The outline in front of the value -/

/-- How far the object that opens at a place reaches: it closes in front of the value, or behind it, and then by so much
as whether the value hides its closing quote tells. -/
inductive Reaches (f : Frame) (opening : Nat) : Prop where
  | front (c : Nat) (hc : c < f.place)
    (h : ∀ v, f.Holds v → objectScope (f.text v) (f.outline v) opening = ⟨opening + 1, c⟩)
  | behind (reach : Bool → Nat)
    (h : ∀ v, f.Holds v → objectScope (f.text v) (f.outline v) opening = ⟨opening + 1, f.behind v + reach (hidesNext v)⟩)

/-- The outline in front of the value is the same for all values. -/
structure Stable (f : Frame) : Prop where
  startsLiteral : ∀ {v w m}, f.Holds v → f.Holds w → m < f.place →
    (f.outline v).startsLiteral m = (f.outline w).startsLiteral m
  inLiteral : ∀ {v w m}, f.Holds v → f.Holds w → m < f.place → (f.outline v).inLiteral m = (f.outline w).inLiteral m
  depthAt : ∀ {v w m}, f.Holds v → f.Holds w → m < f.place → (f.outline v).depthAt m = (f.outline w).depthAt m
  reaches : ∀ {v b}, f.Holds v → b ∈ (f.outline v).braces → b.offset < f.place → f.Reaches b.offset

/-- What the scan finds from the value on. Its braces lie behind the value, as far as whether the value hides its closing
quote tells. -/
theorem scanFrom_value (hquote : isQuote f.quote = true) (d : Nat) :
    ∃ braces : Bool → List Outline.Brace, (∀ hides, ∀ b ∈ braces hides, f.place + 2 ≤ b.offset) ∧ ∀ v, f.Holds v →
      (Outline.scanFrom (.string f.quote f.place) (f.place + 1) d (v ++ f.quote :: f.back)).braces =
        (braces (hidesNext v)).map fun b => ⟨b.offset + v.length, b.depth⟩ := by
  let mode (hides : Bool) : Outline.Mode := if hides then .string f.quote f.place else .code
  refine ⟨fun hides => (Outline.scanFrom (mode hides) (f.place + 2) d f.back).braces,
    fun hides => (Outline.sorted_scanFrom _ _ _ _).2, fun v hv => ?_⟩
  have hbehind : (Outline.scanFrom (.string f.quote f.place) (f.place + 1) d (v ++ f.quote :: f.back)).braces =
      (Outline.scanFrom (mode (hidesNext v)) (f.place + 2 + v.length) d f.back).braces := by
    have hlen : f.place + 1 + v.length + 1 = f.place + 2 + v.length := by omega
    cases hends : hidesNext v with
    | false =>
      rw [scanFrom_string hquote (body_of_hidesNext hv hends), hlen]
      rfl
    | true =>
      rw [scanFrom_hidden hv hends, hlen]
      rfl
  -- A longer value moves what is behind it, and nothing else.
  let move (k : Nat) : Nat := if k ≤ f.place then k else k + v.length
  have hmode : (mode (hidesNext v)).relabel move = mode (hidesNext v) := by
    cases hidesNext v with
    | false => rfl
    | true => exact congrArg (Outline.Mode.string f.quote) (if_pos le_rfl)
  have hmove : ∀ k, f.place + 2 ≤ k → move k = k + v.length := fun k hk => if_neg (by omega)
  have hrelabel := Outline.scanFrom_relabel move (mode (hidesNext v)) (f.place + 2) d f.back fun k => by
    rw [hmove _ (by omega), hmove _ le_rfl]
    omega
  rw [hmode, hmove _ le_rfl] at hrelabel
  rw [hbehind, hrelabel]
  refine List.map_congr_left fun b hb => ?_
  rw [hmove _ ((Outline.sorted_scanFrom _ _ _ _).2 b hb)]

/-- **The outline in front of a value between quotes does not depend on the value**, where a literal begins at its
quote. -/
theorem stable (hquote : isQuote f.quote = true) (h : (f.outline v).startsLiteral f.place = true) : f.Stable := by
  obtain ⟨s, hs, hplace⟩ := List.any_eq_true.mp h
  have hplace : s.start = f.place := by simpa using hplace
  obtain ⟨x, c, rest, o, d, htext, hstart, hleads⟩ := Outline.exists_leads_of_start
    (show Outline.Mode.Within (· < 0) .code from trivial) (Nat.zero_le _) hs
  obtain ⟨rfl, hrest⟩ := List.append_inj htext (by rw [← Nat.zero_add x.length, ← hstart, hplace]; rfl)
  obtain ⟨rfl, -⟩ := List.cons.inj hrest
  obtain ⟨braces, hbehind, hbraces⟩ := scanFrom_value hquote d
  let p (v : List Char) : Outline :=
    Outline.scanFrom (.string f.quote f.place) (f.place + 1) d (v ++ f.quote :: f.back)
  have houtline : ∀ v, f.outline v = o ++ p v := by
    intro v
    have hscan := hleads.scan (v ++ f.quote :: f.back)
    rw [scanFrom_opening hquote, Nat.zero_add] at hscan
    exact hscan
  have hwithin : ∀ v, (p v).Within (f.place ≤ ·) := fun v =>
    Outline.scanFrom_within (show Outline.Mode.Within (f.place ≤ ·) (.string f.quote f.place) from
      ⟨isQuote_iff.mp hquote, le_rfl⟩) d _ fun k hk _ => by omega
  have hfront : ∀ a ∈ o.braces, a.offset < f.place := by simpa [place] using hleads.braces
  have hsorted : ∀ v, (o ++ p v).braces.Pairwise fun a b => a.offset < b.offset := fun v => by
    rw [← houtline v]
    exact Outline.sorted_braces _
  refine ⟨fun {v w m} _ _ hm => ?_, fun {v w m} _ _ hm => ?_, fun {v w m} _ _ hm => ?_, fun {v b} hv hb hlt => ?_⟩
  · rw [houtline v, houtline w, Outline.startsLiteral_front (hwithin v) hm, Outline.startsLiteral_front (hwithin w) hm]
  · rw [houtline v, houtline w, Outline.inLiteral_front (hwithin v) hm, Outline.inLiteral_front (hwithin w) hm]
  · rw [houtline v, houtline w, Outline.depthAt_front (hwithin v) hm.le, Outline.depthAt_front (hwithin w) hm.le]
  have hmem : b ∈ o.braces := by
    rw [houtline v] at hb
    refine (List.mem_append.mp hb).resolve_right fun hb => ?_
    have := (hwithin v).braces b hb
    omega
  rcases Outline.closingBrace?_front hmem hfront with ⟨c, hc, hclosing⟩ | hclosing
  · refine .front c hc fun v hv => ?_
    rw [objectScope, houtline v, hclosing (p v) (hsorted v), Option.getD_some]
  · refine .behind (fun hides => (((braces hides).find? (·.depth < b.depth)).map
      fun a => a.offset - (f.place + 2)).getD f.back.length) fun v hv => ?_
    rw [objectScope, houtline v, hclosing (p v) (hsorted v), hbraces v hv, List.find?_map, Option.map_map]
    refine congrArg (Span.mk (b.offset + 1)) ?_
    show (((braces (hidesNext v)).find? fun a => decide (a.depth < b.depth)).map _).getD _ = _
    cases hfind : (braces (hidesNext v)).find? (fun a => decide (a.depth < b.depth)) with
    | none => simp [length_text]
    | some a =>
      have hle := hbehind _ a (List.mem_of_find?_eq_some hfind)
      simp only [Option.map_some, Option.getD_some, Function.comp, behind]
      omega

/-! ### The lookup in front of the value -/

section Lookup
variable (hf : f.Stable) (hv : f.Holds v) (hw : f.Holds w) {leaf key : List Char} {keys : List (List Char)} {depth : Nat}
include hf hv hw

theorem Stable.isKey (hn : n < f.place) (depth : Nat) : isKey (f.outline v) n depth = isKey (f.outline w) n depth := by
  rw [Json.isKey, Json.isKey, hf.startsLiteral hv hw hn, hf.depthAt hv hw hn]

/-- An object that closes in front of the value takes the same stretch whatever the value is. -/
theorem Stable.objectScope_front {b : Outline.Brace} (hb : b ∈ (f.outline v).braces)
    (hstop : (objectScope (f.text v) (f.outline v) b.offset).stop ≤ f.place) (hlt : b.offset < f.place) :
    objectScope (f.text w) (f.outline w) b.offset = objectScope (f.text v) (f.outline v) b.offset := by
  rcases hf.reaches hv hb hlt with ⟨c, hc, h⟩ | ⟨reach, h⟩
  · rw [h v hv, h w hw]
  · rw [h v hv] at hstop
    simp only [behind] at hstop
    omega

/-- **A lookup in front of the value finds the same whatever the value is.** -/
theorem Stable.findIn_front {scope : Span} (hscope : Encloses (f.text v) scope) (hstop : scope.stop ≤ f.place) :
    findIn (f.text w) (f.outline w) leaf keys depth scope = findIn (f.text v) (f.outline v) leaf keys depth scope := by
  have htake : ∀ value, (f.text value).take scope.stop = f.front.take scope.stop := take_front hstop
  induction keys generalizing depth scope with
  | nil =>
    rw [findIn_leaf, findIn_leaf, htake, htake]
    refine firstAnswer_congr fun n _ hn => ?_
    by_cases hlt : n < scope.stop
    · simp only [leafAt, hf.isKey hv hw (hlt.trans_le hstop)]
    · have hnil : (f.front.take scope.stop).drop n = [] :=
        List.drop_eq_nil_of_le ((List.length_take_le _ _).trans (by omega))
      rw [leafAt, leafAt, hnil]
      rfl
  | cons key keys ih =>
    rw [findIn_parent, findIn_parent]
    refine firstAnswer_congr fun n hstart _ => Option.ext fun found => ?_
    rw [parentAt_eq_some_iff, parentAt_eq_some_iff, htake, htake]
    refine exists_congr fun lead => and_congr_right fun hobject => ?_
    have hlt := object?_lt_length hobject
    have hlen := List.length_take_le scope.stop f.front
    rw [List.length_drop] at hlt
    rw [hf.isKey hv hw (by omega), hf.inLiteral hv hw (by omega)]
    refine and_congr_right fun _ => and_congr_right fun hliteral => ?_
    rw [← hf.inLiteral hv hw (by omega)] at hliteral
    rw [← htake v] at hobject
    obtain ⟨-, b, hb, hplace⟩ := exists_brace_of_object? hobject hliteral
    have hinner := (hscope b hb (by omega) (by omega)).trans hstop
    rw [← hplace, hf.objectScope_front hv hw hb hinner (by omega), ih (encloses_object hb) hinner (take_front hinner)]

end Lookup

/-! ### The key of the value -/

/-- The key that leads to the value. -/
structure Named (f : Frame) (key : List Char) (n : Nat) : Prop where
  place : n ≤ f.place
  reads : ∀ rest, afterKey? key (f.front.drop n ++ f.quote :: rest) = some (f.front.drop n, f.quote :: rest)

/-- A key whose value is the one in the frame leads to the quote in front of it. -/
theorem named_of_value {key : List Char} {k : Nat} {slot : Slot} (hquote : isQuote f.quote = true)
    (h : leaf? key (((f.text v).take (f.behind v + k)).drop n) = some slot) (hvalue : (slot.occurrence n).value = f.span v) :
    f.Named key n := by
  have hstart : n + slot.lead.length = f.place + 1 := congrArg Span.start hvalue
  obtain ⟨c, hc, -⟩ := leaf?_lead h
  have hpos : 0 < slot.lead.length := List.length_pos_iff.mpr fun hnil => by simp [hnil] at hc
  have hplace : n ≤ f.place := by omega
  obtain ⟨rest, htext⟩ := leaf?_text h
  have hlead : slot.lead = f.front.drop n ++ [f.quote] := by
    have hsplit : slot.lead ++ (slot.value ++ slot.close ++ rest) =
        (f.front.drop n ++ [f.quote]) ++ (v ++ f.quote :: f.back.take k) := by
      rw [drop_take_behind hplace] at htext
      simpa using htext.symm
    refine (List.append_inj hsplit ?_).1
    rw [List.length_append, List.length_singleton, length_drop_front]
    omega
  obtain ⟨lead, rest, hlead', -, hkey⟩ := leaf?_quoted hquote h (by rw [hlead, List.getLast?_concat])
  obtain rfl : lead = f.front.drop n := List.append_cancel_right (hlead'.symm.trans hlead)
  obtain ⟨opening, closing, before, behind, hopening, hclosing, hbefore, hbehind, -, hwritten, -⟩ :=
    afterKey?_eq_some_iff.mp hkey
  exact ⟨hplace, fun other => afterKey?_eq_some_iff.mpr ⟨opening, closing, before, behind, hopening, hclosing, hbefore,
    hbehind, stops_cons_iff.mpr (isBlank_of_isQuote hquote), hwritten, rfl⟩⟩

/-- The value is read with its key, whatever it is and whatever stands behind it. -/
theorem Named.leaf? {key : List Char} (h : f.Named key n) (hquote : isQuote f.quote = true) (hw : f.Holds w)
    (rest : List Char) :
    leaf? key (f.front.drop n ++ f.quote :: (w ++ f.quote :: rest)) =
      some ⟨f.front.drop n ++ [f.quote], w, [f.quote]⟩ := by
  refine leaf?_eq_some_iff.mpr ⟨_, _, ⟨[f.quote], w, [f.quote]⟩, h.reads _, ?_, rfl⟩
  rw [scalar?_of_isQuote hquote]
  exact quoted?_eq_some_iff.mpr ⟨w, rest, fun c hc => by simpa using hw c hc, rfl, rfl⟩

/-- The same key in front of that one has its value in front of the quote. -/
theorem Named.lead_lt {key tail lead rest : List Char} {m : Nat} (h : f.Named key n) (hm : m < n)
    (hlead : afterKey? key (f.front.drop m ++ f.quote :: tail) = some (lead, rest)) :
    m + lead.length < f.place := by
  have hlong := afterKey?_length (h.reads tail)
  have hplace := h.place
  have hdrop : (f.front.drop m ++ f.quote :: tail).drop (n - m) = f.front.drop n ++ f.quote :: tail := by
    rw [List.drop_append_of_le_length (by rw [length_drop_front]; omega), List.drop_drop, Nat.add_sub_cancel' hm.le]
  have := afterKey?_overlap hlead (Nat.sub_pos_of_lt hm) (by rw [hdrop]; exact h.reads tail)
  rw [length_drop_front] at hlong
  omega

/-- Where no string disguises as the key, the value of a key in front of the quote does not go on over that. -/
theorem not_over_of_undisguised {key lead z : List Char} {c : Char} {m : Nat} (hquote : isQuote f.quote = true)
    (hplace : (f.outline v).startsLiteral f.place = true) (hclear : Undisguised (f.text v) key f.place)
    (hm : m < f.place) (hliteral : (f.outline v).startsLiteral m = true) (hfront : f.front.drop m = lead ++ c :: z)
    (hread : ∀ other, afterKey? key (f.front.drop m ++ other) = some (lead, c :: z ++ other)) (hc : isQuote c = true) :
    ¬∀ d ∈ z ++ [f.quote], (d != c && d != '\n') = true := by
  intro hpassed
  have hz : ∀ d ∈ z, d ≠ c ∧ d ≠ '\n' := fun d hd => by simpa using hpassed d (List.mem_append_left _ hd)
  have hdrop : (f.text v).drop m = lead ++ c :: (z ++ f.quote :: (v ++ f.quote :: f.back)) := by
    rw [drop_text hm.le, hfront, List.append_assoc, List.cons_append]
  have hsize : m + lead.length + 1 + z.length = f.place := by
    have := congrArg List.length hfront
    rw [length_drop_front, List.length_append, List.length_cons] at this
    omega
  have hkey := hread (f.quote :: (v ++ f.quote :: f.back))
  rw [← drop_text hm.le] at hkey
  have hnone := startsLiteral_closing (hclear m hm hliteral _ hkey hc)
    (by rw [← List.drop_drop, hdrop, List.drop_left]) hc hquote hz
  rw [hsize, hplace] at hnone
  cases hnone

/-- **No key with a value comes up in front of the one of the value**, unless a string disguises as one. -/
theorem Named.earlier {key rest rest' : List Char} {m : Nat} (h : f.Named key n) (hquote : isQuote f.quote = true)
    (hv : f.Holds v) (hw : ∀ c ∈ w, isQuote c = false ∧ c ≠ '\n')
    (hplace : (f.outline v).startsLiteral f.place = true) (hm : m < n)
    (hliteral : (f.outline v).startsLiteral m = true) (hrest : rest = rest' ∨ Undisguised (f.text v) key f.place)
    (hread : Json.leaf? key (f.front.drop m ++ f.quote :: (w ++ f.quote :: rest')) ≠ none) :
    Json.leaf? key (f.front.drop m ++ f.quote :: (v ++ f.quote :: rest)) ≠ none := by
  obtain ⟨slot, hslot⟩ := Option.ne_none_iff_exists'.mp hread
  obtain ⟨lead, tail, inner, hlead, hinner, -⟩ := leaf?_eq_some_iff.mp hslot
  have hlt := h.lead_lt hm hlead
  obtain ⟨c, z, hfront, rfl, hsame⟩ := afterKey?_front hlead (by rw [length_drop_front]; omega)
  rw [leaf?_of_afterKey? (hsame _), Ne, Option.map_eq_none_iff]
  rcases scalar?_eq_some_iff.mp hinner with ⟨c, tail, hc, htail, hquoted⟩ | ⟨bare, others, hne, hbare, -, htail, -⟩
  · obtain ⟨rfl, rfl⟩ := List.cons.inj htail
    have hcut : ∀ value more : List Char, z ++ f.quote :: (value ++ f.quote :: more) =
        z ++ [f.quote] ++ (value ++ [f.quote] ++ more) := by simp
    have hends : quoted? c (z ++ f.quote :: (w ++ f.quote :: rest')) ≠ none :=
      Option.ne_none_iff_exists'.mpr ⟨_, hquoted⟩
    rw [List.cons_append, scalar?_of_isQuote hc, hcut]
    rw [hcut] at hends
    rcases quoted?_append c (z ++ [f.quote]) with hpassed | hnear
    · rcases hrest with rfl | hclear
      · refine quoted?_over hpassed (fun hmem => (hv _ hmem).2 rfl) (fun d hd => ?_) hends
        obtain ⟨hplain, hfeed⟩ := hw d hd
        have hne : d ≠ c := by
          rintro rfl
          rw [hc] at hplain
          cases hplain
        simp [hne, hfeed]
      · exact absurd hpassed (not_over_of_undisguised hquote hplace hclear (hm.trans_le h.place) hliteral hfront hsame hc)
    · exact hnear _ _ hends
  · obtain ⟨c, bare, rfl⟩ := List.exists_cons_of_ne_nil hne
    obtain ⟨rfl, -⟩ := List.cons.inj htail
    exact scalar?_ne_none (hbare c List.mem_cons_self) _

/-! ### The lookup -/

section Lookup
variable {leaf key : List Char} {keys : List (List Char)} {depth k k' : Nat}

/-- A key with an object that begins in front of the value has it open there. -/
theorem lead_lt_place {tail : List Char} {lead : Nat} (hquote : isQuote f.quote = true)
    (h : object? key (f.front.drop n ++ f.quote :: tail) = some lead) (hle : n + lead ≤ f.place) : n + lead < f.place := by
  obtain ⟨front, rest, hkey, rfl⟩ := object?_eq_some_iff.mp h
  obtain ⟨-, -, -, -, -, -, -, -, -, -, htext⟩ := afterKey?_eq_some_iff.mp hkey
  have hlen := f.length_drop_front n
  by_contra hlt
  obtain ⟨-, hrest⟩ := List.append_inj htext (by omega)
  rw [(List.cons.inj hrest).1] at hquote
  cases hquote

/-- **No object comes up in front of the one with the value** that holds the rest of the path: it would close in front of
the value, and hold that before, or it holds the value. -/
theorem Stable.parent_earlier (hf : f.Stable) (hv : f.Holds v) (hw : f.Holds w) {lead m : Nat} {tail : List Char}
    {b : Outline.Brace} (hb : b ∈ (f.outline v).braces) (hplace : b.offset = n + lead) (hlt : n + lead < f.place)
    (hobject : object? key (f.front.drop n ++ f.quote :: tail) = some lead)
    (hinner : findIn (f.text v) (f.outline v) leaf keys (depth + 1) (objectScope (f.text v) (f.outline v) b.offset) ≠ none)
    (hm : m < n) (hnone : parentAt (f.text v) (f.outline v) leaf key keys depth (f.behind v + k) m = none) :
    parentAt (f.text w) (f.outline w) leaf key keys depth (f.behind w + k') m = none := by
  by_contra hne
  obtain ⟨other, hother⟩ := Option.ne_none_iff_exists'.mp hne
  obtain ⟨lead', hobject', hkey', hliteral', hinner'⟩ := parentAt_eq_some_iff.mp hother
  have hobject'' : object? key (((f.text w).take (f.behind w + k')).drop n) = some lead := by
    rw [drop_take_behind (by omega)]
    exact object?_front hobject (by rw [length_drop_front]; omega) _
  have hfront := object?_overlap hm hobject' hobject''
  rw [drop_take_behind (by omega)] at hobject'
  have hread : object? key (((f.text v).take (f.behind v + k)).drop m) = some lead' := by
    rw [drop_take_behind (by omega)]
    exact object?_front hobject' (by rw [length_drop_front]; omega) _
  rw [← hf.isKey hv hw (by omega)] at hkey'
  rw [← hf.inLiteral hv hw (by omega)] at hliteral'
  obtain ⟨-, a, ha, haplace⟩ := exists_brace_of_object? hread hliteral'
  have hbefore : findIn (f.text v) (f.outline v) leaf keys (depth + 1)
      (objectScope (f.text v) (f.outline v) a.offset) ≠ none := by
    by_cases hstop : (objectScope (f.text v) (f.outline v) a.offset).stop ≤ f.place
    · rw [← hf.findIn_front hv hw (encloses_object ha) hstop, ← hf.objectScope_front hv hw ha hstop (by omega), haplace,
        hinner']
      simp
    · have hinside : b.offset < (objectScope (f.text v) (f.outline v) a.offset).stop := by omega
      refine findIn_wider ?_ (objectScope_stop_le ha hb (by omega) hinside) hinner
      simp only [objectScope]
      omega
  obtain ⟨before, hbefore⟩ := Option.ne_none_iff_exists'.mp hbefore
  rw [haplace] at hbefore
  rw [parentAt_eq_some_iff.mpr ⟨lead', hread, hkey', hliteral', hbefore⟩] at hnone
  cases hnone

end Lookup

section Lookup
variable (hf : f.Stable) (hquote : isQuote f.quote = true) (hv : f.Holds v)
  (hw : ∀ c ∈ w, isQuote c = false ∧ c ≠ '\n') {leaf key : List Char} {keys : List (List Char)} {depth start k k' : Nat}
  {found : Occurrence}
include hf hquote hv hw

omit hf hv in
theorem holds_of_plain : f.Holds w := by
  refine fun c hc => ⟨?_, (hw c hc).2⟩
  rintro rfl
  have := (hw _ hc).1
  rw [hquote] at this
  cases this

/-- The last key of the path leads to the new value where it led to the old one. -/
theorem Stable.leaf_exchange (hplace : (f.outline v).startsLiteral f.place = true)
    (hends : k = k' ∨ Undisguised (f.text v) leaf f.place)
    (h : findIn (f.text v) (f.outline v) leaf [] depth ⟨start, f.behind v + k⟩ = some found)
    (hvalue : found.value = f.span v) :
    ∃ found', findIn (f.text w) (f.outline w) leaf [] depth ⟨start, f.behind w + k'⟩ = some found' ∧
      found'.value = f.span w := by
  have hw' := holds_of_plain hquote hw
  rw [findIn_leaf, firstAnswer_eq_some_iff] at h
  obtain ⟨n, hstart, -, hn, hmin⟩ := h
  obtain ⟨slot, hslot, hkey, rfl⟩ := leafAt_eq_some_iff.mp hn
  have hnamed := named_of_value hquote hslot hvalue
  have hlong := afterKey?_length (hnamed.reads [])
  rw [length_drop_front] at hlong
  refine ⟨Slot.occurrence ⟨f.front.drop n ++ [f.quote], w, [f.quote]⟩ n, ?_, ?_⟩
  · rw [findIn_leaf, firstAnswer_eq_some_iff]
    refine ⟨n, hstart, by simp only [behind]; omega, leafAt_eq_some_iff.mpr ⟨_, ?_, ?_, rfl⟩, fun m hm hlt => ?_⟩
    · rw [drop_take_behind hnamed.place]
      exact hnamed.leaf? hquote hw' _
    · rwa [← hf.isKey hv hw' (by omega)]
    · by_contra hne
      obtain ⟨other, hother⟩ := Option.ne_none_iff_exists'.mp hne
      obtain ⟨slot', hslot', hkey', -⟩ := leafAt_eq_some_iff.mp hother
      rw [drop_take_behind (by omega)] at hslot'
      rw [← hf.isKey hv hw' (by omega)] at hkey'
      have hread := hnamed.earlier hquote hv hw hplace hlt (Bool.and_eq_true_iff.mp hkey').1
        (hends.imp (congrArg f.back.take) id) (by rw [hslot']; simp)
      have hnone := hmin m hm hlt
      rw [leafAt_of_isKey hkey', Option.map_eq_none_iff, drop_take_behind (by omega)] at hnone
      exact hread hnone
  · simp only [Slot.occurrence, span, List.length_append, length_drop_front, List.length_singleton, Span.mk.injEq]
    omega

/-- **The new value is found where the old one was**, in any stretch that reaches behind it, if the value reaches as far
as the old one or no string disguises as its key. -/
theorem Stable.findIn_exchange (hplace : (f.outline v).startsLiteral f.place = true)
    (hends : hidesNext v = hidesNext w ∨ Undisguised (f.text v) leaf f.place)
    (hreach : hidesNext v = hidesNext w → k = k')
    (h : findIn (f.text v) (f.outline v) leaf keys depth ⟨start, f.behind v + k⟩ = some found)
    (hvalue : found.value = f.span v) :
    ∃ found', findIn (f.text w) (f.outline w) leaf keys depth ⟨start, f.behind w + k'⟩ = some found' ∧
      found'.value = f.span w := by
  have hw' := holds_of_plain hquote hw
  induction keys generalizing depth start k k' with
  | nil => exact hf.leaf_exchange hquote hv hw hplace (hends.imp hreach id) h hvalue
  | cons key keys ih =>
    rw [findIn_parent, firstAnswer_eq_some_iff] at h
    obtain ⟨n, hstart, -, hn, hmin⟩ := h
    obtain ⟨lead, hobject, hkey, hliteral, hinner⟩ := parentAt_eq_some_iff.mp hn
    have hbehind := start_le_of_findIn hinner
    rw [hvalue] at hbehind
    simp only [objectScope, span] at hbehind
    obtain ⟨-, b, hb, hbplace⟩ := exists_brace_of_object? hobject hliteral
    rw [drop_take_behind (by omega)] at hobject
    have hlead := lead_lt_place hquote hobject (by omega)
    rw [← hbplace] at hinner
    have hstop : found.value.stop ≤ (objectScope (f.text v) (f.outline v) b.offset).stop :=
      stop_le_of_findIn (encloses_object hb) hinner
    rw [hvalue] at hstop
    simp only [span] at hstop
    -- The object holds the value, so it closes behind that.
    rcases hf.reaches hv hb (hbplace ▸ hlead) with ⟨c, hc, hscope⟩ | ⟨reach, hscope⟩
    · rw [hscope v hv] at hstop
      simp only at hstop
      omega
    have hfound := hinner
    rw [hscope v hv] at hfound
    obtain ⟨found', hfound', hvalue'⟩ := ih (congrArg reach) hfound
    refine ⟨found', ?_, hvalue'⟩
    rw [findIn_parent, firstAnswer_eq_some_iff]
    refine ⟨n, hstart, by simp only [behind]; omega, parentAt_eq_some_iff.mpr ⟨lead, ?_, ?_, ?_, ?_⟩, fun m hm hlt => ?_⟩
    · rw [drop_take_behind (by omega)]
      exact object?_front hobject (by rw [length_drop_front]; omega) _
    · rwa [← hf.isKey hv hw' (by omega)]
    · rwa [← hf.inLiteral hv hw' hlead]
    · rwa [← hbplace, hscope w hw']
    · exact hf.parent_earlier hv hw' hb hbplace hlead hobject (by rw [hinner]; simp) hlt (hmin m hm hlt)

end Lookup
end Frame

/-- **Where a value between quotes was found, the new one is found** once it stands there, if a literal began at its
quote. Both values have to hide what is behind them, or neither, unless no string disguises as the last key of the path. -/
theorem find?_quoted {e : Edit} {path : KeyPath} {quote : Char} (hquote : isQuote quote = true)
    (hfront : e.front.getLast? = some quote) (hnew : ∀ c ∈ e.new, isQuote c = false ∧ c ≠ '\n')
    (hliteral : (Outline.scan e.before).startsLiteral (e.front.length - 1) = true)
    (hends : hidesNext e.old = hidesNext e.new ∨ Undisguised e.before path.leaf.toList (e.front.length - 1))
    {found : Occurrence} (h : find? e.before path = some found) (hvalue : found.value = e.oldSpan) :
    ∃ found', find? e.after path = some found' ∧ found'.value = e.newSpan := by
  obtain ⟨n, stop, slot, -, -, hslot, rfl⟩ := leaf_of_findIn h
  obtain ⟨hle, -, hseen, hlead, hold⟩ := leaf?_at_value hslot hvalue
  obtain ⟨x, hx⟩ := List.getLast?_eq_some_iff.mp hfront
  -- The quote in front of the value stands behind it as well.
  obtain ⟨y, hy, hinner⟩ : ∃ y, e.back = quote :: y ∧ ∀ c ∈ e.old, c ≠ quote ∧ c ≠ '\n' := by
    obtain ⟨c, hc, -⟩ := leaf?_lead hslot
    have hlast : slot.lead.getLast? = some quote := by
      rw [hlead, List.getLast?_drop] at hc ⊢
      split at hc
      · cases hc
      · rwa [if_neg ‹_›]
    obtain ⟨lead, rest, hlead', hvalue, hkey⟩ := leaf?_quoted hquote hslot hlast
    obtain ⟨-, -, -, -, -, -, -, -, -, -, htext⟩ := afterKey?_eq_some_iff.mp hkey
    rw [hseen, ← hlead, hlead', hold] at htext
    have hclose : e.back.take (stop - e.stop) = quote :: rest := by simpa using htext
    refine ⟨rest ++ e.back.drop (stop - e.stop), ?_, hold ▸ hvalue⟩
    conv_lhs => rw [← List.take_append_drop (stop - e.stop) e.back, hclose]
    rfl
  let f : Frame := ⟨x, quote, y⟩
  have hbefore : e.before = f.text e.old := by simp [Edit.before, Frame.text, f, hx, hy]
  have hafter : e.after = f.text e.new := by simp [Edit.after, Frame.text, f, hx, hy]
  have hplace : e.front.length - 1 = f.place := by simp [hx, f, Frame.place]
  have hall : ∀ value, Span.all (f.text value) = ⟨0, f.behind value + f.back.length⟩ := fun value => by
    rw [Span.all, Frame.length_text]
  rw [hplace, hbefore] at hliteral hends
  rw [hbefore, find?, hall] at h
  have hspan : (slot.occurrence n).value = f.span e.old := by
    rw [hvalue, Edit.oldSpan, Edit.stop]
    simp [Frame.span, f, Frame.place, hx]
  obtain ⟨found', hfound', hvalue'⟩ := (Frame.stable hquote hliteral).findIn_exchange hquote hinner hnew hliteral hends
    (fun _ => rfl) h hspan
  refine ⟨found', ?_, ?_⟩
  · rw [hafter, find?, hall]
    exact hfound'
  · rw [hvalue', Edit.newSpan]
    simp [Frame.span, f, Frame.place, hx]

end ManifestBump.Json

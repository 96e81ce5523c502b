import ManifestBump.Proofs.Json.Literal

/-! Objects inside of objects.

The braces of an outline stand in the order of the text (`sorted_braces`), and every brace that opens outside of literals
is one of them (`exists_brace`). Hence an object that opens inside of another one closes no later
(`objectScope_stop_le`), what a lookup finds lies in the stretch it looked at (`stop_le_of_findIn`), and in a wider
stretch something is found as well (`findIn_wider`). -/
namespace ManifestBump.Outline
open Text

/-! ### Braces in the order of the text -/

variable {mode : Mode} {n d : Nat}

theorem sorted_step (mode : Mode) (n d : Nat) (c : Char) (next : Option Char) :
    (step mode n d c next).found.braces.Pairwise fun a b => a.offset < b.offset := by
  cases mode <;>
  · simp only [step]
    repeat' split
    all_goals simp [blank]

/-- Braces are found one behind the other. -/
theorem sorted_scanFrom (mode : Mode) (n d : Nat) (text : List Char) :
    (scanFrom mode n d text).braces.Pairwise (fun a b => a.offset < b.offset) ∧
      ∀ b ∈ (scanFrom mode n d text).braces, n ≤ b.offset := by
  induction hlen : text.length using Nat.strong_induction_on generalizing mode n d text with
  | _ len ih =>
    cases text with
    | nil =>
      rw [scanFrom_nil]
      cases mode <;> simp [finish, blank]
    | cons c rest =>
      rw [scanFrom_cons]
      set t := step mode n d c rest.head? with ht
      obtain ⟨hsorted, hle⟩ := ih _ (by rw [← hlen]; simp) t.mode (n + 1 + t.more) t.depth (rest.drop t.more) rfl
      have hfound : ∀ b ∈ t.found.braces, b.offset = n := fun b hb => offset_of_step_found hb
      refine ⟨List.pairwise_append.mpr ⟨sorted_step .., hsorted, fun a ha b hb => ?_⟩, fun b hb => ?_⟩
      · have := hfound a ha
        have := hle b hb
        omega
      · rcases List.mem_append.mp hb with hb | hb
        · exact (hfound b hb).ge
        · have := hle b hb
          omega

theorem sorted_braces (text : List Char) : (scan text).braces.Pairwise fun a b => a.offset < b.offset :=
  (sorted_scanFrom .code 0 0 text).1

/-! ### Braces outside of literals -/

theorem inLiteral_append (o p : Outline) (n : Nat) : (o ++ p).inLiteral n = (o.inLiteral n || p.inLiteral n) :=
  List.any_append

theorem startsLiteral_append (o p : Outline) (n : Nat) :
    (o ++ p).startsLiteral n = (o.startsLiteral n || p.startsLiteral n) :=
  List.any_append

/-- A brace is taken together with the character in front of it only where that hides it, in a string. -/
theorem start?_of_step_brace {c : Char} (h : (step mode n d c (some '\x7b')).more ≠ 0) :
    ∃ s, mode.start? = some s ∧ (step mode n d c (some '\x7b')).mode.start? = some s := by
  cases mode with
  | string quote s =>
    refine ⟨s, rfl, ?_⟩
    simp only [step] at h ⊢
    repeat' split at h
    all_goals simp_all [Mode.start?]
  | code | lineComment | blockComment =>
    refine absurd ?_ h
    simp only [step]
    repeat' split
    all_goals simp_all

/-- **A brace that opens outside of literals is one of the outline.** -/
theorem exists_brace {x rest : List Char} (hmode : mode.Within (· < n))
    (h : (scanFrom mode n d (x ++ '\x7b' :: rest)).inLiteral (n + x.length) = false) :
    ∃ b ∈ (scanFrom mode n d (x ++ '\x7b' :: rest)).braces, b.offset = n + x.length := by
  induction hlen : x.length using Nat.strong_induction_on generalizing mode n d x with
  | _ len ih =>
    subst hlen
    cases x with
    | nil =>
      cases hstart : mode.start? with
      | none =>
        have hcode : mode = .code := by
          cases mode with
          | code => rfl
          | string | lineComment | blockComment => cases hstart
        subst hcode
        exact ⟨⟨n, d + 1⟩, List.mem_cons_self, rfl⟩
      | some s =>
        have hin := inLiteral_of_start? (d := d) hstart (hmode.start hstart).le (c := '\x7b') (by decide) rest
        rw [List.nil_append, List.length_nil, Nat.add_zero, hin] at h
        cases h
    | cons c x =>
      rw [List.cons_append, scanFrom_cons] at h ⊢
      set t := step mode n d c (x ++ '\x7b' :: rest).head? with ht
      obtain ⟨-, h⟩ := Bool.or_eq_false_iff.mp ((inLiteral_append _ _ _).symm.trans h)
      have hmode' : t.mode.Within (· < n + 1 + t.more) :=
        step_mode_within (hmode.mono fun k hk => by omega) fun _ => by omega
      by_cases hmore : t.more ≤ x.length
      · have hdrop : (x ++ '\x7b' :: rest).drop t.more = x.drop t.more ++ '\x7b' :: rest :=
          List.drop_append_of_le_length hmore
        have hsize : n + 1 + t.more + (x.drop t.more).length = n + (c :: x).length := by
          rw [List.length_drop, List.length_cons]
          omega
        rw [hdrop, ← hsize] at h
        obtain ⟨b, hb, hoffset⟩ := ih _ (by simp) hmode' h rfl
        rw [← hdrop] at hb
        exact ⟨b, List.mem_append_right _ hb, hoffset.trans hsize⟩
      · -- The brace is hidden, so it lies in the string.
        have hone : t.more ≤ 1 := step_more_le mode n d c _
        obtain rfl : x = [] := List.length_eq_zero_iff.mp (by omega)
        have hskip : t.more ≠ 0 := by omega
        obtain ⟨s, hs, hs'⟩ := start?_of_step_brace hskip
        have hlt := hmode.start hs
        obtain ⟨stop, hmem, hle⟩ := exists_literal_of_start? (n := n + 1 + t.more) (d := t.depth) hs'
          (([] ++ '\x7b' :: rest).drop t.more)
        have hout := List.any_eq_false.mp h _ hmem
        simp only [List.length_nil] at hmore
        simp only [Span.contains, Bool.and_eq_true, decide_eq_true_eq, List.length_cons, List.length_nil] at hout
        omega

theorem exists_brace_of_scan {x rest : List Char} (h : (scan (x ++ '\x7b' :: rest)).inLiteral x.length = false) :
    ∃ b ∈ (scan (x ++ '\x7b' :: rest)).braces, b.offset = x.length := by
  have hcode : Mode.Within (· < 0) .code := trivial
  rw [← Nat.zero_add x.length] at h ⊢
  exact exists_brace hcode h

/-! ### Objects inside of objects -/

variable {o : Outline}

/-- Where the object closes that a brace opens. -/
theorem closingBrace?_of_split (hsorted : o.braces.Pairwise fun a b => a.offset < b.offset) {bs cs : List Brace}
    {b : Brace} (h : o.braces = bs ++ b :: cs) :
    o.closingBrace? b.offset = (cs.find? (·.depth < b.depth)).map Brace.offset := by
  rw [h] at hsorted
  have hfront : bs.dropWhile (fun a => decide (a.offset < b.offset)) = [] :=
    List.dropWhile_eq_nil_iff.mpr fun a ha =>
      decide_eq_true ((List.pairwise_append.mp hsorted).2.2 a ha b List.mem_cons_self)
  rw [closingBrace?, h, List.dropWhile_append, hfront]
  simp

/-- A weaker test is passed no later. -/
theorem exists_find?_le {p q : Brace → Bool} {l : List Brace} {e : Brace}
    (hsorted : l.Pairwise fun a b => a.offset < b.offset) (hpq : ∀ a, p a = true → q a = true)
    (h : l.find? p = some e) : ∃ e', l.find? q = some e' ∧ e'.offset ≤ e.offset := by
  obtain ⟨hp, l₁, l₂, rfl, -⟩ := List.find?_eq_some_iff_append.mp h
  rw [List.find?_append]
  cases hfirst : l₁.find? q with
  | none => exact ⟨e, by simp [hpq e hp], le_rfl⟩
  | some e' =>
    have hlt := (List.pairwise_append.mp hsorted).2.2 e' (List.mem_of_find?_eq_some hfirst) e List.mem_cons_self
    exact ⟨e', rfl, hlt.le⟩

/-- **An object that opens inside of another one closes no later.** -/
theorem closingBrace?_le (hsorted : o.braces.Pairwise fun a b => a.offset < b.offset) {a b : Brace}
    (ha : a ∈ o.braces) (hb : b ∈ o.braces) (hab : a.offset < b.offset) {c : Nat}
    (hclosing : o.closingBrace? a.offset = some c) (hc : b.offset < c) :
    ∃ c', o.closingBrace? b.offset = some c' ∧ c' ≤ c := by
  obtain ⟨bs, cs, hsplit⟩ := List.append_of_mem ha
  rw [closingBrace?_of_split hsorted hsplit] at hclosing
  rw [hsplit] at hb
  have hsorted' := hsorted
  rw [hsplit] at hsorted'
  obtain ⟨-, hinner, hcross⟩ := List.pairwise_append.mp hsorted'
  obtain ⟨-, hinner⟩ := List.pairwise_cons.mp hinner
  have hmem : b ∈ cs := by
    rcases List.mem_append.mp hb with hb | hb
    · have := hcross b hb a List.mem_cons_self
      omega
    · rcases List.mem_cons.mp hb with rfl | hb
      · omega
      · exact hb
  obtain ⟨cs₁, cs₂, rfl⟩ := List.append_of_mem hmem
  obtain ⟨e, he, rfl⟩ := Option.map_eq_some_iff.mp hclosing
  have hbefore := (List.pairwise_append.mp hinner).2.2
  have hbehind := (List.pairwise_cons.mp (List.pairwise_append.mp hinner).2.1).2
  -- The outer object goes on over the inner brace, so that is no less deep.
  have hfirst : cs₁.find? (fun x => decide (x.depth < a.depth)) = none := by
    by_contra hne
    obtain ⟨e', he'⟩ := Option.ne_none_iff_exists'.mp hne
    rw [List.find?_append, he', Option.some_or] at he
    cases he
    have := hbefore e (List.mem_of_find?_eq_some he') b List.mem_cons_self
    omega
  have hdepth : ¬b.depth < a.depth := by
    intro hlt
    rw [List.find?_append, hfirst, Option.none_or, List.find?_cons_of_pos (by simpa using hlt)] at he
    cases he
    omega
  rw [List.find?_append, hfirst, Option.none_or, List.find?_cons_of_neg (by simpa using hdepth)] at he
  obtain ⟨e', he', hle⟩ := exists_find?_le (q := fun x => decide (x.depth < b.depth)) hbehind
    (fun x hx => by simp only [decide_eq_true_eq] at hx ⊢; omega) he
  have hsplit' : o.braces = (bs ++ a :: cs₁) ++ b :: cs₂ := by rw [hsplit]; simp
  exact ⟨e'.offset, by rw [closingBrace?_of_split hsorted hsplit', he']; rfl, hle⟩

/-! ### The front of an outline -/

section Front
variable {p : Outline}

theorem startsLiteral_front (hp : p.Within (n ≤ ·)) {m : Nat} (hm : m < n) :
    (o ++ p).startsLiteral m = o.startsLiteral m := by
  rw [startsLiteral_append, Bool.or_eq_left_iff_imp]
  intro h
  obtain ⟨s, hs, hstart⟩ := List.any_eq_true.mp h
  have := (hp.literals s hs).1
  simp only [beq_iff_eq] at hstart
  omega

theorem inLiteral_front (hp : p.Within (n ≤ ·)) {m : Nat} (hm : m < n) : (o ++ p).inLiteral m = o.inLiteral m := by
  rw [inLiteral_append, Bool.or_eq_left_iff_imp]
  intro h
  obtain ⟨s, hs, hin⟩ := List.any_eq_true.mp h
  have := (hp.literals s hs).1
  simp only [Span.contains, Bool.and_eq_true, decide_eq_true_eq] at hin
  omega

theorem depthAt_front (hp : p.Within (n ≤ ·)) {m : Nat} (hm : m ≤ n) : (o ++ p).depthAt m = o.depthAt m := by
  have hbehind : p.braces.takeWhile (fun b => decide (b.offset < m)) = [] := by
    refine takeWhile_of_stops fun b hb => decide_eq_false ?_
    have := hp.braces b (List.mem_of_mem_head? hb)
    omega
  have hsame : (o ++ p).braces.takeWhile (fun b => decide (b.offset < m)) =
      o.braces.takeWhile fun b => decide (b.offset < m) := by
    rw [braces_append, List.takeWhile_append, hbehind, List.append_nil]
    split
    · rename_i hlen
      exact ((List.takeWhile_prefix _).eq_of_length hlen).symm
    · rfl
  rw [depthAt, depthAt, hsame]

/-- An object that opens in the front closes there, or at the first brace behind it that is less deep. -/
theorem closingBrace?_front {b : Brace} (hb : b ∈ o.braces) (ho : ∀ a ∈ o.braces, a.offset < n) :
    (∃ c < n, ∀ p : Outline, (o ++ p).braces.Pairwise (fun a b => a.offset < b.offset) →
        (o ++ p).closingBrace? b.offset = some c) ∨
      ∀ p : Outline, (o ++ p).braces.Pairwise (fun a b => a.offset < b.offset) →
        (o ++ p).closingBrace? b.offset = (p.braces.find? (·.depth < b.depth)).map Brace.offset := by
  obtain ⟨bs, cs, hsplit⟩ := List.append_of_mem hb
  have hclosing : ∀ p : Outline, (o ++ p).braces.Pairwise (fun a b => a.offset < b.offset) →
      (o ++ p).closingBrace? b.offset =
        ((cs.find? (·.depth < b.depth)).or (p.braces.find? (·.depth < b.depth))).map Brace.offset := by
    intro p hsorted
    have hwhole : (o ++ p).braces = bs ++ b :: (cs ++ p.braces) := by rw [braces_append, hsplit]; simp
    rw [closingBrace?_of_split hsorted hwhole, List.find?_append]
  cases hfirst : cs.find? (fun a => decide (a.depth < b.depth)) with
  | none =>
    refine .inr fun p hsorted => ?_
    rw [hclosing p hsorted, hfirst, Option.none_or]
  | some e =>
    have hmem : e ∈ o.braces := by
      rw [hsplit]
      exact List.mem_append_right _ (List.mem_cons_of_mem _ (List.mem_of_find?_eq_some hfirst))
    refine .inl ⟨e.offset, ho e hmem, fun p hsorted => ?_⟩
    rw [hclosing p hsorted, hfirst]
    rfl

end Front
end Outline

namespace Json
open Text

variable {text : List Char}

/-! ### Scopes -/

theorem objectScope_stop_le_length (text : List Char) (opening : Nat) :
    (objectScope text (Outline.scan text) opening).stop ≤ text.length := by
  have hwithin : (Outline.scan text).Within (· ≤ text.length) :=
    Outline.scanFrom_within (show Outline.Mode.Within (· ≤ text.length) .code from trivial) 0 text fun k _ hk => by omega
  simp only [objectScope]
  cases hclosing : (Outline.scan text).closingBrace? opening with
  | none => exact le_rfl
  | some c => exact Outline.closingBrace?_within hwithin hclosing

/-- An object that opens inside of another one takes no longer stretch. -/
theorem objectScope_stop_le {a b : Outline.Brace} (ha : a ∈ (Outline.scan text).braces)
    (hb : b ∈ (Outline.scan text).braces) (hab : a.offset < b.offset)
    (hlt : b.offset < (objectScope text (Outline.scan text) a.offset).stop) :
    (objectScope text (Outline.scan text) b.offset).stop ≤ (objectScope text (Outline.scan text) a.offset).stop := by
  cases hclosing : (Outline.scan text).closingBrace? a.offset with
  | none =>
    refine (objectScope_stop_le_length text b.offset).trans ?_
    simp [objectScope, hclosing]
  | some c =>
    simp only [objectScope, hclosing, Option.getD_some] at hlt ⊢
    obtain ⟨c', hc', hle⟩ := Outline.closingBrace?_le (Outline.sorted_braces text) ha hb hab hclosing hlt
    rwa [hc', Option.getD_some]

/-- Every object that opens in the stretch closes in it, or at its end. -/
def Encloses (text : List Char) (scope : Span) : Prop :=
  ∀ b ∈ (Outline.scan text).braces, scope.start ≤ b.offset → b.offset < scope.stop →
    (objectScope text (Outline.scan text) b.offset).stop ≤ scope.stop

theorem encloses_object {a : Outline.Brace} (ha : a ∈ (Outline.scan text).braces) :
    Encloses text (objectScope text (Outline.scan text) a.offset) :=
  fun _ hb hstart hlt => objectScope_stop_le ha hb hstart hlt

/-- The object of a key opens at a brace of the outline. -/
theorem exists_brace_of_object? {key : List Char} {stop n lead : Nat}
    (h : object? key ((text.take stop).drop n) = some lead) (hliteral : (Outline.scan text).inLiteral (n + lead) = false) :
    n + lead < stop ∧ ∃ b ∈ (Outline.scan text).braces, b.offset = n + lead := by
  obtain ⟨front, rest, hkey, rfl⟩ := object?_eq_some_iff.mp h
  obtain ⟨-, -, -, -, -, -, -, -, -, -, hread⟩ := afterKey?_eq_some_iff.mp hkey
  have hlen := congrArg List.length hread
  rw [List.length_drop, List.length_append, List.length_cons] at hlen
  have htake := List.length_take_le stop text
  refine ⟨by omega, ?_⟩
  have htext : text = ((text.take stop).take n ++ front) ++ '\x7b' :: (rest ++ text.drop stop) := by
    conv_lhs => rw [← List.take_append_drop stop text, ← List.take_append_drop n (text.take stop), hread]
    simp
  have hplace : ((text.take stop).take n ++ front).length = n + front.length := by
    rw [List.length_append, List.length_take_of_le (by omega)]
  rw [htext, ← hplace] at hliteral
  have hbrace := Outline.exists_brace_of_scan hliteral
  rwa [← htext, hplace] at hbrace

/-! ### Lookups -/

variable {leaf : List Char} {keys : List (List Char)} {depth : Nat} {scope wider : Span} {found : Occurrence}

/-- **What a lookup finds ends where the stretch ends, or before.** -/
theorem stop_le_of_findIn (hscope : Encloses text scope)
    (h : findIn text (Outline.scan text) leaf keys depth scope = some found) : found.value.stop ≤ scope.stop := by
  induction keys generalizing depth scope with
  | nil =>
    rw [findIn_leaf, firstAnswer_eq_some_iff] at h
    obtain ⟨n, -, -, hn, -⟩ := h
    obtain ⟨slot, hslot, -, rfl⟩ := leafAt_eq_some_iff.mp hn
    obtain ⟨rest, hread⟩ := leaf?_text hslot
    obtain ⟨c, hc, -⟩ := leaf?_lead hslot
    have hpos : 0 < slot.lead.length := List.length_pos_iff.mpr fun hnil => by simp [hnil] at hc
    have hlen := congrArg List.length hread
    simp only [List.length_drop, List.length_append] at hlen
    have htake := List.length_take_le scope.stop text
    show n + slot.lead.length + slot.value.length ≤ scope.stop
    omega
  | cons key keys ih =>
    rw [findIn_parent, firstAnswer_eq_some_iff] at h
    obtain ⟨n, hstart, -, hn, -⟩ := h
    obtain ⟨lead, hobject, -, hliteral, hinner⟩ := parentAt_eq_some_iff.mp hn
    obtain ⟨hlt, b, hb, hplace⟩ := exists_brace_of_object? hobject hliteral
    rw [← hplace] at hinner
    exact (ih (encloses_object hb) hinner).trans (hscope b hb (by omega) (by omega))

/-- More text behind a key and its value leaves a key and a value. -/
theorem leaf?_append_ne_none {key front : List Char} (h : leaf? key front ≠ none) (more : List Char) :
    leaf? key (front ++ more) ≠ none := by
  obtain ⟨slot, hslot⟩ := Option.ne_none_iff_exists'.mp h
  obtain ⟨lead, rest, inner, hkey, hinner, -⟩ := leaf?_eq_some_iff.mp hslot
  obtain ⟨opening, closing, before, behind, hopening, hclosing, hbefore, hbehind, hstop, hlead, rfl⟩ :=
    afterKey?_eq_some_iff.mp hkey
  have hne : rest ≠ [] := by
    rintro rfl
    cases hinner
  have hkey' : afterKey? key (lead ++ rest ++ more) = some (lead, rest ++ more) :=
    afterKey?_eq_some_iff.mpr ⟨opening, closing, before, behind, hopening, hclosing, hbefore, hbehind,
      (stops_append_iff hne more).mpr hstop, hlead, List.append_assoc _ _ _⟩
  rw [leaf?_of_afterKey? hkey', Ne, Option.map_eq_none_iff]
  rcases scalar?_eq_some_iff.mp hinner with ⟨quote, tail, hquote, rfl, hquoted⟩ | ⟨bare, others, hbare, hchars, -, rfl, -⟩
  · obtain ⟨value, others, hvalue, rfl, -⟩ := quoted?_eq_some_iff.mp hquoted
    have hread : quoted? quote (value ++ quote :: others ++ more) = some ⟨[quote], value, [quote]⟩ :=
      quoted?_eq_some_iff.mpr ⟨value, others ++ more, hvalue, by simp, rfl⟩
    rw [List.cons_append, scalar?_of_isQuote hquote, hread]
    simp
  · obtain ⟨c, bare, rfl⟩ := List.exists_cons_of_ne_nil hbare
    exact scalar?_ne_none (hchars c List.mem_cons_self) _

theorem object?_append {key front : List Char} {lead : Nat} (h : object? key front = some lead) (more : List Char) :
    object? key (front ++ more) = some lead := by
  have hlt := object?_lt_length h
  rw [← List.append_nil front] at h
  exact object?_front h hlt more

/-- What is seen from a place of a stretch is the front of what is seen in a wider one. -/
theorem exists_drop_take (text : List Char) {stop stop' n : Nat} (h : stop ≤ stop') (hne : (text.take stop).drop n ≠ []) :
    ∃ more, (text.take stop').drop n = (text.take stop).drop n ++ more := by
  have hlen : n ≤ (text.take stop).length := by
    by_contra hlt
    exact hne (List.drop_eq_nil_of_le (by omega))
  refine ⟨(text.take stop').drop stop, ?_⟩
  rw [← List.drop_append_of_le_length hlen]
  conv_lhs => rw [← List.take_append_drop stop (text.take stop'), List.take_take, Nat.min_eq_left h]

/-- **Where something is found, something is found in a wider stretch**, maybe in front of it. -/
theorem findIn_wider {outline : Outline} (hstart : wider.start ≤ scope.start) (hstop : scope.stop ≤ wider.stop)
    (h : findIn text outline leaf keys depth scope ≠ none) : findIn text outline leaf keys depth wider ≠ none := by
  obtain ⟨found, hfound⟩ := Option.ne_none_iff_exists'.mp h
  intro hnone
  cases keys with
  | nil =>
    rw [findIn_leaf] at hfound hnone
    obtain ⟨n, hs, he, hn, -⟩ := firstAnswer_eq_some_iff.mp hfound
    obtain ⟨slot, hslot, hkey, -⟩ := leafAt_eq_some_iff.mp hn
    obtain ⟨more, hmore⟩ := exists_drop_take text hstop fun hnil => by
      rw [hnil] at hslot
      cases hslot
    have hthere := firstAnswer_eq_none_iff.mp hnone n (hstart.trans hs) (he.trans hstop)
    rw [leafAt_of_isKey hkey, Option.map_eq_none_iff, hmore] at hthere
    exact leaf?_append_ne_none (by rw [hslot]; simp) more hthere
  | cons key keys =>
    rw [findIn_parent] at hfound hnone
    obtain ⟨n, hs, he, hn, -⟩ := firstAnswer_eq_some_iff.mp hfound
    obtain ⟨lead, hobject, hkey, hliteral, hinner⟩ := parentAt_eq_some_iff.mp hn
    obtain ⟨more, hmore⟩ := exists_drop_take text hstop fun hnil => by
      rw [hnil] at hobject
      cases hobject
    have hthere := firstAnswer_eq_none_iff.mp hnone n (hstart.trans hs) (he.trans hstop)
    rw [parentAt_eq_some_iff.mpr ⟨lead, by rw [hmore]; exact object?_append hobject more, hkey, hliteral, hinner⟩]
      at hthere
    cases hthere

end Json
end ManifestBump

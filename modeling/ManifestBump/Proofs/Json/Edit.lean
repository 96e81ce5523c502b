import ManifestBump.Proofs.Json.Moved
import ManifestBump.Proofs.Version.Exchange

/-! A JSON text in which the value of a key is exchanged.

A value without quotes is a run of bare characters (`Bare`), and so is every version. As long as the outline is only
moved (`scan_passed`) and no key of a path is read across the new value (`Across`), the same keys are read from the same
places before and afterwards (`object?_shift`, `leaf?_exchange`), and the lookup that found the old value finds the new
one (`find?_carried`). No character of a version is structure, and no key that a dotted path can name contains a version
with a dot, so that holds of versions (`find?_exchange`). -/
namespace ManifestBump.Json
open Text

/-! ### Bare runs -/

/-- A run of bare characters, with something in it. -/
structure Bare (text : List Char) : Prop where
  ne_nil : text ≠ []
  chars : ∀ c ∈ text, isBare c = true

section Char
variable {c : Char} (h : isBare c = true)
include h

theorem isBlank_of_isBare : isBlank c = false := by
  simp only [isBare, Bool.and_eq_true, Bool.not_eq_true'] at h
  exact h.1

theorem ne_of_isBare {d : Char} (hd : isBare d = false) : c ≠ d := by
  rintro rfl
  rw [h] at hd
  cases hd

theorem isQuote_of_isBare : isQuote c = false := by
  simp [isQuote, ne_of_isBare h (d := '"') (by decide), ne_of_isBare h (d := '\'') (by decide)]

end Char

/-- No blank stands at the front of a bare run. -/
theorem Bare.stops {text : List Char} (h : Bare text) (rest : List Char) : Stops isBlank (text ++ rest) := by
  obtain ⟨c, others, rfl⟩ := List.exists_cons_of_ne_nil h.ne_nil
  exact stops_cons_iff.mpr (isBlank_of_isBare (h.chars c List.mem_cons_self))

/-! ### Keys near a value -/

/-- The ways to read a key from the front of `x` on that goes on in a value behind `x`. -/
inductive Across (key x value : List Char) : Prop where
  /-- The value is a part of the key. -/
  | inside {opening : Char} {k₁ k₂ : List Char} (hopening : isQuote opening = true) (hx : x = opening :: k₁)
    (hkey : key = k₁ ++ value ++ k₂)
  /-- The value begins with the colon of the key. -/
  | colon {front blanks : List Char} {closing : Char} (hclosing : isQuote closing = true)
    (hblanks : ∀ c ∈ blanks, isBlank c = true) (hx : x = front ++ closing :: blanks) (hvalue : ':' ∈ value)

/-- A key in front of a value, or across it. -/
theorem lead_cases {key x value b lead rest : List Char} (hvalue : Bare value)
    (h : afterKey? key (x ++ value ++ b) = some (lead, rest)) :
    (∃ y, x = lead ++ y ∧ rest = y ++ value ++ b) ∨ x.length < lead.length ∧ Across key x value := by
  obtain ⟨opening, closing, before, behind, hopening, hclosing, hbefore, hbehind, -, rfl, htext⟩ :=
    afterKey?_eq_some_iff.mp h
  obtain ⟨first, others, hfirst⟩ := List.exists_cons_of_ne_nil hvalue.ne_nil
  have hbare : isBare first = true := hvalue.chars first (by simp [hfirst])
  have htext₁ : (opening :: key) ++ closing :: (before ++ ':' :: (behind ++ rest)) = x ++ value ++ b := by
    rw [htext]
    simp [written]
  have hcolon : ∀ y, x = opening :: key ++ closing :: y → y = before → ':' ∈ value →
      x.length < (written opening key closing before behind).length ∧ Across key x value := by
    rintro y rfl rfl hmem
    refine ⟨?_, .colon hclosing hbefore rfl hmem⟩
    simp only [written, List.length_append, List.length_cons]
    omega
  rcases run_cases hvalue.chars (isBare_of_isQuote hclosing) htext₁ with ⟨k₂, hkey, -⟩ | ⟨y₁, hx, htext₂⟩
  · right
    cases x with
    | nil =>
      rw [hfirst] at hkey
      obtain ⟨rfl, -⟩ := List.cons.inj hkey
      rw [isQuote_of_isBare hbare] at hopening
      cases hopening
    | cons o x =>
      obtain rfl : opening = o := (List.cons.inj hkey).1
      have hkey' : key = x ++ value ++ k₂ := (List.cons.inj hkey).2
      refine ⟨?_, .inside hopening rfl hkey'⟩
      simp only [written, hkey', List.length_append, List.length_cons]
      omega
  · -- The closing quote is in front of the value. Where is the colon?
    rw [List.append_assoc] at htext₂
    rcases List.append_eq_append_iff.mp htext₂ with ⟨z, hy, hz⟩ | ⟨z, hbefore', hz⟩
    · cases z with
      | nil =>
        rw [hfirst] at hz
        obtain ⟨rfl, -⟩ := List.cons.inj hz
        exact .inr (hcolon y₁ hx (by simpa using hy) (by simp [hfirst]))
      | cons colon y₂ =>
        obtain ⟨rfl, hrest⟩ := List.cons.inj hz
        left
        subst hy hx
        rcases List.append_eq_append_iff.mp hrest with ⟨y₃, rfl, rfl⟩ | ⟨inner, rfl, hinner⟩
        · exact ⟨y₃, by simp [written], by rw [List.append_assoc]⟩
        · cases inner with
          | nil => exact ⟨[], by simp [written], by simpa using hinner.symm⟩
          | cons c inner =>
            rw [hfirst] at hinner
            obtain ⟨rfl, -⟩ := List.cons.inj hinner
            have := hbehind first (by simp)
            rw [isBlank_of_isBare hbare] at this
            cases this
    · cases z with
      | nil =>
        rw [hfirst] at hz
        obtain ⟨rfl, -⟩ := List.cons.inj hz
        exact .inr (hcolon y₁ hx (by simpa using hbefore'.symm) (by simp [hfirst]))
      | cons c z =>
        rw [hfirst] at hz
        obtain ⟨rfl, -⟩ := List.cons.inj hz
        have := hbefore first (by simp [hbefore'])
        rw [isBlank_of_isBare hbare] at this
        cases this

/-- A key in front of a value is read alike, whatever the value is. -/
theorem afterKey?_exchange {key b lead y value value' : List Char} (hvalue' : Bare value')
    (h : afterKey? key (lead ++ y ++ value ++ b) = some (lead, y ++ value ++ b)) :
    afterKey? key (lead ++ y ++ value' ++ b) = some (lead, y ++ value' ++ b) := by
  obtain ⟨opening, closing, before, behind, hopening, hclosing, hbefore, hbehind, hstop, hlead, -⟩ :=
    afterKey?_eq_some_iff.mp h
  refine afterKey?_eq_some_iff.mpr ⟨opening, closing, before, behind, hopening, hclosing, hbefore,
    hbehind, ?_, hlead, by simp⟩
  cases y with
  | nil => exact hvalue'.stops b
  | cons c y => exact stops_cons_iff.mpr (stops_cons_iff.mp hstop)

/-! ### Values at a value -/

/-- Where something is read around or in front of a value, something is read whatever the value is. -/
theorem scalar?_exchange {y b value value' : List Char} (hvalue : Bare value) (hvalue' : Bare value')
    (h : scalar? (y ++ value ++ b) ≠ none) : scalar? (y ++ value' ++ b) ≠ none := by
  obtain ⟨slot, hslot⟩ := Option.ne_none_iff_exists'.mp h
  cases y with
  | nil =>
    obtain ⟨c, others, rfl⟩ := List.exists_cons_of_ne_nil hvalue'.ne_nil
    exact scalar?_ne_none (hvalue'.chars c List.mem_cons_self) _
  | cons c y =>
    rcases scalar?_eq_some_iff.mp hslot with
      ⟨quote, tail, hquote, htext, hquoted⟩ | ⟨bare, rest, hne, hbare, -, htext, -⟩
    · obtain ⟨rfl, htail⟩ := List.cons.inj htext
      obtain ⟨inner, rest, hinner, rfl, -⟩ := quoted?_eq_some_iff.mp hquoted
      have hforeign : isBare c = false := isBare_of_isQuote hquote
      have hinner' : ∃ inner' rest', (∀ d ∈ inner', (d != c && d != '\n') = true) ∧
          y ++ value' ++ b = inner' ++ c :: rest' := by
        rcases run_cases hvalue.chars hforeign htail.symm with ⟨z, rfl, rfl⟩ | ⟨z, rfl, -⟩
        · refine ⟨y ++ value' ++ z, rest, fun d hd => ?_, by simp⟩
          rcases List.mem_append.mp hd with hd | hd
          · rcases List.mem_append.mp hd with hd | hd
            · exact hinner d (by simp [hd])
            · have hchar := hvalue'.chars d hd
              simp [ne_of_isBare hchar hforeign, ne_of_isBare hchar (d := '\n') (by decide)]
          · exact hinner d (by simp [hd])
        · exact ⟨inner, z ++ value' ++ b, hinner, by simp⟩
      obtain ⟨inner', rest', hchars, htext'⟩ := hinner'
      have hquoted' : scalar? (c :: (y ++ value' ++ b)) = some ⟨[c], inner', [c]⟩ := by
        rw [scalar?_of_isQuote hquote]
        exact quoted?_eq_some_iff.mpr ⟨inner', rest', hchars, htext', rfl⟩
      exact Option.ne_none_iff_exists'.mpr ⟨_, hquoted'⟩
    · obtain ⟨d, bare, rfl⟩ := List.exists_cons_of_ne_nil hne
      obtain ⟨rfl, -⟩ := List.cons.inj htext
      exact scalar?_ne_none (hbare c List.mem_cons_self) _

/-- A value is exchanged for a value, with or without quotes around it. -/
theorem scalar?_replace {y b value value' : List Char} {close : List Char}
    (hvalue' : Bare value') (h : scalar? (y ++ value ++ b) = some ⟨y, value, close⟩) :
    scalar? (y ++ value' ++ b) = some ⟨y, value', close⟩ := by
  rcases scalar?_eq_some_iff.mp h with
    ⟨quote, tail, hquote, htext, hslot⟩ | ⟨bare, rest, hne, hbare, hstop, htext, hslot⟩
  · obtain ⟨inner, rest, hinner, rfl, heq⟩ := quoted?_eq_some_iff.mp hslot
    cases heq
    obtain rfl : b = quote :: rest := by simpa using htext
    refine scalar?_eq_some_iff.mpr (.inl ⟨quote, value' ++ quote :: rest, hquote, by simp, ?_⟩)
    refine quoted?_eq_some_iff.mpr ⟨value', rest, fun c hc => ?_, rfl, rfl⟩
    have hchar := hvalue'.chars c hc
    simp [ne_of_isBare hchar (isBare_of_isQuote hquote), ne_of_isBare hchar (d := '\n') (by decide)]
  · cases hslot
    obtain rfl : b = rest := by simpa using htext
    exact scalar?_eq_some_iff.mpr (.inr ⟨value', b, hvalue'.ne_nil, hvalue'.chars, hstop, by simp, rfl⟩)

/-! ### Keys from the same place -/

/-- A key whose value is the old one is read up to it. -/
theorem leaf?_at_value {e : Edit} {key : List Char} {n stop : Nat} {slot : Slot}
    (h : leaf? key ((e.before.take stop).drop n) = some slot) (hvalue : (slot.occurrence n).value = e.oldSpan) :
    n ≤ e.front.length ∧ e.stop ≤ stop ∧
      (e.before.take stop).drop n = e.front.drop n ++ e.old ++ e.back.take (stop - e.stop) ∧
      slot.lead = e.front.drop n ∧ slot.value = e.old := by
  obtain ⟨c, hc, -⟩ := leaf?_lead h
  have hpos : 0 < slot.lead.length := List.length_pos_iff.mpr fun hnil => by simp [hnil] at hc
  have hstart : n + slot.lead.length = e.front.length := congrArg Span.start hvalue
  have hend : n + slot.lead.length + slot.value.length = e.stop := congrArg Span.stop hvalue
  have hle : n ≤ e.front.length := by omega
  obtain ⟨rest, htext⟩ := leaf?_text h
  -- The value lies in front of where the lookup stops, so the old value does.
  have hreach : e.stop ≤ stop := by
    have hlen := congrArg List.length htext
    have htake := List.length_take_le stop e.before
    simp only [List.length_drop, List.length_append] at hlen
    omega
  have hseen := Edit.drop_front hle e.old (e.back.take (stop - e.stop))
  rw [← Edit.take_before hreach] at hseen
  rw [hseen, List.append_assoc, List.append_assoc, List.append_assoc] at htext
  obtain ⟨hlead, htext⟩ := List.append_inj htext (by rw [List.length_drop]; omega)
  obtain ⟨hold, -⟩ := List.append_inj htext (by simp only [Edit.stop] at hend; omega)
  exact ⟨hle, hreach, hseen, hlead.symm, hold.symm⟩

section Edits
variable {e : Edit} (hold : Bare e.old) (hnew : Bare e.new)
include hold hnew

/-- Where no key with a value was read before, none is read afterwards, unless across the new value. -/
theorem leaf?_exchange {key x b : List Char} (hclear : ¬Across key x e.new)
    (hnone : leaf? key (x ++ e.old ++ b) = none) : leaf? key (x ++ e.new ++ b) = none := by
  by_contra hne
  obtain ⟨slot, hslot⟩ := Option.ne_none_iff_exists'.mp hne
  obtain ⟨lead, rest, inner, hkey, hinner, -⟩ := leaf?_eq_some_iff.mp hslot
  rcases lead_cases hnew hkey with ⟨y, rfl, rfl⟩ | ⟨-, hacross⟩
  · have hkey' := afterKey?_exchange hold hkey
    have hread := scalar?_exchange hnew hold (y := y) (b := b) (by rw [hinner]; simp)
    obtain ⟨inner', hinner'⟩ := Option.ne_none_iff_exists'.mp hread
    rw [leaf?_eq_some_iff.mpr ⟨lead, _, inner', hkey', hinner', rfl⟩] at hnone
    cases hnone
  · exact hclear hacross

omit hold in
/-- A key whose value is the old one is read afterwards, with the new one. -/
theorem leaf?_replace {key x b : List Char} {slot : Slot} (h : leaf? key (x ++ e.old ++ b) = some slot)
    (hlead : slot.lead = x) (hvalue : slot.value = e.old) :
    leaf? key (x ++ e.new ++ b) = some ⟨x, e.new, slot.close⟩ := by
  obtain ⟨lead, behind, inner, hkey, hinner, rfl⟩ := leaf?_eq_some_iff.mp h
  obtain ⟨lead', value, close⟩ := inner
  simp only [Slot.behind] at hlead hvalue
  subst hlead hvalue
  have hbehind : behind = lead' ++ e.old ++ b := by
    obtain ⟨-, -, -, -, -, -, -, -, -, -, hsplit⟩ := afterKey?_eq_some_iff.mp hkey
    rw [List.append_assoc, List.append_assoc] at hsplit
    rw [List.append_assoc]
    exact (List.append_cancel_left hsplit).symm
  subst hbehind
  exact leaf?_eq_some_iff.mpr ⟨lead, _, ⟨lead', e.new, close⟩, afterKey?_exchange hnew hkey,
    scalar?_replace hnew hinner, rfl⟩

omit hold in
theorem object?_in_front {key x b : List Char} {k : Nat} (hclear : ¬Across key x e.new)
    (h : object? key (x ++ e.new ++ b) = some k) : k < x.length := by
  obtain ⟨lead, rest, hkey, rfl⟩ := object?_eq_some_iff.mp h
  rcases lead_cases hnew hkey with ⟨y, rfl, hrest⟩ | ⟨-, hacross⟩
  · cases y with
    | nil =>
      obtain ⟨v, others, hv⟩ := List.exists_cons_of_ne_nil hnew.ne_nil
      have hfirst := hnew.chars v (by rw [hv]; exact List.mem_cons_self)
      rw [hv] at hrest
      rw [← (List.cons.inj hrest).1] at hfirst
      exact absurd hfirst (by decide)
    | cons c y => simp
  · exact absurd hacross hclear

/-- **A key with an object that is read afterwards was read before**, and its object opens on the
same side of the value. -/
theorem object?_shift {n stop k : Nat} (hn : e.Outside n) (hstop : e.Outside stop) {key : List Char}
    (hclear : n ≤ e.front.length → ¬Across key (e.front.drop n) e.new)
    (h : object? key ((e.after.take (e.shift stop)).drop (e.shift n)) = some k) :
    object? key ((e.before.take stop).drop n) = some k ∧
      (n + (k + 1) ≤ e.front.length ∨ e.stop ≤ n) := by
  have hp : e.Proper := ⟨hold.ne_nil, hnew.ne_nil⟩
  rcases hn with hn | hn
  · rcases hstop with hstop | hstop
    · rw [← Edit.take_eq_take hstop, Edit.shift_of_le hn] at h
      have := object?_lt_length h
      have := List.length_take_le stop e.before
      rw [List.length_drop] at *
      exact ⟨h, .inl (by omega)⟩
    · rw [Edit.take_after hp hstop, Edit.shift_of_le hn, Edit.drop_front hn] at h
      have hlt := object?_in_front hnew (hclear hn) h
      rw [List.append_assoc] at h
      rw [Edit.take_before hstop, Edit.drop_front hn, List.append_assoc]
      refine ⟨object?_front h hlt _, .inl ?_⟩
      rw [List.length_drop] at hlt
      omega
  · rw [Edit.drop_behind hp hn hstop]
    exact ⟨h, .inr hn⟩

/-! ### The lookup -/

section Places
variable {o : Outline} (ho : o.Within e.Outside) {leaf key : List Char} {n stop depth : Nat}

include ho in
theorem leafAt_carried (hclear : n ≤ e.front.length → isKey o n depth = true → ¬Across leaf (e.front.drop n) e.new)
    (hn : e.Outside n) (hstop : e.Outside stop) :
    e.Carried (leafAt (e.before.take stop) o leaf depth n)
      (leafAt (e.after.take (e.shift stop)) (o.relabel e.shift) leaf depth (e.shift n)) := by
  have hp : e.Proper := ⟨hold.ne_nil, hnew.ne_nil⟩
  constructor
  · intro hnone
    by_contra hne
    obtain ⟨found, hfound⟩ := Option.ne_none_iff_exists'.mp hne
    obtain ⟨slot, hslot, hkey, -⟩ := leafAt_eq_some_iff.mp hfound
    rw [isKey_shift hp ho hn] at hkey
    rw [leafAt_of_isKey hkey, Option.map_eq_none_iff] at hnone
    have halike := Edit.alike hp hn hstop
    generalize (e.before.take stop).drop n = s at halike hnone
    generalize (e.after.take (e.shift stop)).drop (e.shift n) = t at halike hslot
    cases halike with
    | same =>
      rw [hnone] at hslot
      cases hslot
    | exchanged hle b =>
      rw [leaf?_exchange hold hnew (hclear hle hkey) hnone] at hslot
      cases hslot
  · intro found hfound hvalue
    obtain ⟨slot, hslot, hkey, rfl⟩ := leafAt_eq_some_iff.mp hfound
    obtain ⟨hle, hreach, hseen, hlead, hread⟩ := leaf?_at_value hslot hvalue
    rw [hseen] at hslot
    have hslot' := leaf?_replace hnew hslot hlead hread
    rw [← Edit.drop_front hle, ← Edit.take_after hp hreach] at hslot'
    refine ⟨Slot.occurrence ⟨e.front.drop n, e.new, slot.close⟩ n, ?_, ?_⟩
    · refine leafAt_eq_some_iff.mpr
        ⟨⟨e.front.drop n, e.new, slot.close⟩, ?_, (isKey_shift hp ho hn depth).trans hkey, ?_⟩
      · rw [Edit.shift_of_le hle, hslot']
      · rw [Edit.shift_of_le hle]
    · simp only [Slot.occurrence, Edit.newSpan, Span.mk.injEq, List.length_drop]
      omega

/-- The object of a key that leads to the value is the same afterwards. -/
theorem sameObject_value (hclear : n ≤ e.front.length → ¬Across key (e.front.drop n) e.new) (hn : e.Outside n)
    (hstop : e.Outside stop) : SameObject e (fun found => found.value = e.oldSpan) key stop n where
  back k hk := object?_shift hold hnew hn hstop hclear hk
  forth k found hk hstart hvalue := by
    have hvalue' : found.value.start = e.front.length := congrArg Span.start hvalue
    have hside : n + (k + 1) ≤ e.front.length := by omega
    refine ⟨?_, .inl hside⟩
    rcases hstop with hstop | hstop
    · rw [← Edit.take_eq_take hstop, Edit.shift_of_le (by omega)]
      exact hk
    · rw [Edit.take_before hstop, Edit.drop_front (by omega), List.append_assoc] at hk
      rw [Edit.take_after ⟨hold.ne_nil, hnew.ne_nil⟩ hstop, Edit.shift_of_le (by omega), Edit.drop_front (by omega),
        List.append_assoc]
      refine object?_front hk ?_ _
      rw [List.length_drop]
      omega

end Places

/-- **Where the old value was found, the new one is found**, if the outline is only moved and no key of the path that
stands in front of the new value is read across it. -/
theorem find?_carried (hmoved : (Outline.scan e.before).Within e.Outside ∧
      Outline.scan e.after = (Outline.scan e.before).relabel e.shift) {path : KeyPath}
    (hclear : ∀ key ∈ path.segments, ∀ n depth, n ≤ e.front.length → isKey (Outline.scan e.before) n depth = true →
      ¬Across key.toList (e.front.drop n) e.new)
    {found : Occurrence} (h : find? e.before path = some found) (hvalue : found.value = e.oldSpan) :
    ∃ found', find? e.after path = some found' ∧ found'.value = e.newSpan := by
  obtain ⟨ho, hscan⟩ := hmoved
  obtain ⟨hleaf, hparents⟩ := KeyPath.forall_toList (P := fun name => ∀ n depth, n ≤ e.front.length →
    isKey (Outline.scan e.before) n depth = true → ¬Across name (e.front.drop n) e.new) hclear
  have hp : e.Proper := ⟨hold.ne_nil, hnew.ne_nil⟩
  have hcarried : e.Carried (find? e.before path) (find? e.after path) :=
    find?_follows hp ho rfl hscan
      (fun hn hstop => leafAt_carried hold hnew ho (fun hle hkey => hleaf _ _ hle hkey) hn hstop)
      fun key hkey n _ depth hn hstop hat =>
        sameObject_value hold hnew (fun hle => hparents key hkey n depth hle hat) hn hstop
  exact hcarried.some found h hvalue

end Edits

/-! ### The outline -/

/-- What stands in front of a value that was found is no half of a token. -/
theorem isDouble_getLast?_front {e : Edit} {path : KeyPath} {found : Occurrence} (h : find? e.before path = some found)
    (hvalue : found.value = e.oldSpan) : ∀ c ∈ e.front.getLast?, Outline.isDouble c = false := by
  obtain ⟨n, stop, slot, -, -, hslot, rfl⟩ := leaf_of_findIn h
  obtain ⟨c, hc, hkind⟩ := leaf?_lead hslot
  obtain ⟨-, -, -, hlead, -⟩ := leaf?_at_value hslot hvalue
  have hlast : e.front.getLast? = some c := by
    rw [hlead, List.getLast?_drop] at hc
    split at hc
    · cases hc
    · exact hc
  rw [hlast]
  rintro _ ⟨⟩
  rcases hkind with hquote | hblank | rfl
  · rcases isQuote_iff.mp hquote with rfl | rfl <;> decide
  · by_contra hdouble
    simp only [Outline.isDouble, Bool.not_eq_false, Bool.or_eq_true, beq_iff_eq] at hdouble
    rcases hdouble with (rfl | rfl) | rfl <;> revert hblank <;> decide
  · decide

/-! ### Versions -/

theorem isPlain_of_isVersionChar {c : Char} (h : isVersionChar c = true) : Outline.isPlain c = true := by
  have hne : ∀ d, isVersionChar d = false → c ≠ d := fun d hd => ne_of_isVersionChar h hd
  simp [Outline.isPlain, hne '"' (by decide), hne '\'' (by decide), hne '\\' (by decide),
    hne '/' (by decide), hne '*' (by decide), hne '\n' (by decide), hne '\x7b' (by decide),
    hne '\x7d' (by decide)]

theorem isBare_of_isVersionChar {c : Char} (h : isVersionChar c = true) : isBare c = true := by
  have hne : ∀ d, isVersionChar d = false → c ≠ d := fun d hd => ne_of_isVersionChar h hd
  simp [isBare, isBlank_of_isVersionChar h, hne '"' (by decide), hne '\'' (by decide),
    hne ',' (by decide), hne '/' (by decide), hne '[' (by decide), hne ']' (by decide),
    hne '\x7b' (by decide), hne '\x7d' (by decide)]

theorem bare_of_written {version : List Char} (h : Release.Written version) : Bare version :=
  ⟨h.ne_nil, fun c hc => isBare_of_isVersionChar (h.chars c hc)⟩

variable {e : Exchange}

/-- The outline after a version has been exchanged is the outline before, moved. -/
theorem scan_exchange (hlast : ∀ c ∈ e.front.getLast?, Outline.isDouble c = false) :
    (Outline.scan e.before).Within e.Outside ∧
      Outline.scan e.after = (Outline.scan e.before).relabel e.shift := by
  obtain ⟨o, mode, d, ho, hmode, hscan⟩ :=
    Outline.scanFrom_append .code 0 0 e.front (by trivial) hlast
  simp only [Nat.zero_add] at ho hmode hscan
  have hplain : ∀ version, Release.Written version → ∀ rest,
      Outline.scanFrom mode e.front.length d (version ++ rest) =
        Outline.scanFrom mode (e.front.length + version.length) d rest := fun version hversion rest =>
    Outline.scanFrom_plain (fun c hc => isPlain_of_isVersionChar (hversion.chars c hc)) hmode _ _ _
  exact scan_passed e.proper ho hmode hscan (hplain e.old e.old_written) (hplain e.new e.new_written)

/-- A key that a dotted path can name is not read across the new version. -/
theorem not_across_of_dot {key x : List Char} (hdot : '.' ∉ key) : ¬Across key x e.new := by
  rintro (⟨-, -, rfl⟩ | ⟨-, -, -, hcolon⟩)
  · exact hdot (by simp [e.dot_mem])
  · exact absurd (e.new_written.chars _ hcolon) (by decide)

/-- **A version that was found is found after it has been exchanged.** -/
theorem find?_exchange {path : KeyPath} (hdots : ∀ key ∈ path.segments, '.' ∉ key.toList)
    {found : Occurrence} (h : find? e.before path = some found) (hvalue : found.value = e.oldSpan) :
    ∃ found', find? e.after path = some found' ∧ found'.value = e.newSpan :=
  find?_carried (bare_of_written e.old_written) (bare_of_written e.new_written)
    (scan_exchange (isDouble_getLast?_front h hvalue)) (fun key hkey _ _ _ _ => not_across_of_dot (hdots key hkey))
    h hvalue

end ManifestBump.Json

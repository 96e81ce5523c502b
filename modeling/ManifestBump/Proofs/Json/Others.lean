import ManifestBump.Proofs.Json.Literal
import ManifestBump.Proofs.Json.Moved
import ManifestBump.Proofs.Json.Pieces

/-! Other keys after a string has been set.

A string that is exchanged for another one between two pieces of a text stays one literal, unless a backslash at its
end hides the closing quote (`scanFrom_literal`). Then the outline is only moved (`Replaced.scan`), and all keys read
what they read before, but for the one whose value has been set (`Replaced.find?_follows`). -/
namespace ManifestBump.Json
open Text

/-! ### Edits of strings -/

/-- In a text a string is exchanged for another one. In front of it there are whole pieces, and the value it is ends
with it. -/
structure Replaced (e : Edit) (old new : List Char) : Prop where
  old_eq : e.old = '"' :: old ++ ['"']
  new_eq : e.new = '"' :: new ++ ['"']
  pieces : Pieces e.front
  ends : Ends e.back
  old_chars : ∀ c ∈ old, isQuote c = false ∧ c ≠ '\n'
  new_chars : ∀ c ∈ new, isQuote c = false ∧ c ≠ '\n'
  old_ends : hidesNext old = false
  new_ends : hidesNext new = false

/-- What is between the quotes of the string. -/
def inner (e : Edit) : Span := ⟨e.front.length + 1, e.stop - 1⟩

section Replaced
variable {e : Edit} {old new : List Char} (h : Replaced e old new)
include h

theorem Replaced.proper : e.Proper := ⟨by rw [h.old_eq]; simp, by rw [h.new_eq]; simp⟩

/-- **The outline is moved.** -/
theorem Replaced.scan : (Outline.scan e.before).Within e.Outside ∧
    Outline.scan e.after = (Outline.scan e.before).relabel e.shift := by
  obtain ⟨o, d, hscan, hwithin, -⟩ := h.pieces.scan 0 0
  simp only [Nat.zero_add] at hscan hwithin
  have hplain : ∀ {text : List Char}, (∀ c ∈ text, isQuote c = false ∧ c ≠ '\n') → ∀ c ∈ text, c ≠ '"' ∧ c ≠ '\n' := by
    intro text hchars c hc
    obtain ⟨hquote, hfeed⟩ := hchars c hc
    refine ⟨?_, hfeed⟩
    rintro rfl
    exact absurd hquote (by decide)
  have hold := scanFrom_literal (by decide) (body_of_hidesNext (hplain h.old_chars) h.old_ends) e.front.length d
  have hnew := scanFrom_literal (by decide) (body_of_hidesNext (hplain h.new_chars) h.new_ends) e.front.length d
  rw [← h.old_eq] at hold
  rw [← h.new_eq] at hnew
  have hliteral : Outline.Within e.Outside ⟨[⟨e.front.length, e.stop⟩], []⟩ :=
    ⟨by simpa using ⟨.inl le_rfl, .inr le_rfl⟩, by simp⟩
  have hmoved : Outline.relabel e.shift ⟨[⟨e.front.length, e.stop⟩], []⟩ =
      ⟨[⟨e.front.length, e.front.length + e.new.length⟩], []⟩ := by
    have hstop : e.shift e.stop = e.front.length + e.new.length := by
      rw [Edit.shift_of_stop_le h.proper le_rfl, Edit.stop]
      omega
    simp only [Outline.relabel, List.map_cons, List.map_nil, Edit.shift_of_le le_rfl, hstop]
  have hcode : Outline.Mode.Within (· ≤ e.front.length) .code := trivial
  exact scan_edit h.proper hwithin hliteral hcode hscan hold fun rest => by rw [hmoved, hnew]

/-- A key in front of the string is a string among the pieces there. -/
theorem Replaced.exists_key {n depth : Nat} (hn : n < e.front.length)
    (hkey : isKey (Outline.scan e.before) n depth = true) :
    ∃ token y, e.front.drop n = Token.render token ++ y ∧ Pieces y := by
  obtain ⟨o, d, hscan, -, hliterals⟩ := h.pieces.scan 0 0
  simp only [isKey, Outline.startsLiteral, Bool.and_eq_true, List.any_eq_true, beq_iff_eq] at hkey
  obtain ⟨⟨s, hs, hstart⟩, -⟩ := hkey
  rw [Outline.scan, Edit.before, List.append_assoc, hscan, Outline.literals_append] at hs
  rcases List.mem_append.mp hs with hs | hs
  · obtain ⟨x, token, y, hfront, hy, hx⟩ := hliterals s hs
    obtain rfl : n = x.length := by omega
    exact ⟨token, y, by rw [hfront, List.drop_left], hy⟩
  · have := ((Outline.within_scanFrom _ d _).literals s hs).1
    omega

/-! ### Keys at single places -/

omit h in
theorem ends_take {text : List Char} (h : Ends text) (k : Nat) : Ends (text.take k) := by
  obtain ⟨blanks, rest, rfl, hblanks, hrest⟩ := exists_cut isBlank text
  rw [Ends, dropWhile_append hblanks hrest] at h
  have hhead : ∀ c ∈ (rest.take (k - blanks.length)).head?, c ∈ rest.head? := by
    intro c hc
    rw [List.head?_take] at hc
    split at hc
    · cases hc
    · exact hc
  rw [Ends, List.take_append, dropWhile_append (fun c hc => hblanks c (List.mem_of_mem_take hc))
    fun c hc => hrest c (hhead c hc)]
  exact fun c hc => h c (hhead c hc)

/-- What a place outside of the string sees of both texts, up to another such place. -/
inductive Views (e : Edit) (old new : List Char) (n : Nat) : List Char → List Char → Prop where
  /-- All that is seen lies on one side of the string. -/
  | same (text : List Char) (hside : ∀ k, k ≤ text.length → Aside e n k) : Views e old new n text text
  /-- The string is seen from its opening quote. -/
  | string (u : List Char) (hends : Ends u) :
    Views e old new n ('"' :: old ++ ['"'] ++ u) ('"' :: new ++ ['"'] ++ u)
  /-- The string is seen behind a key and other pieces. -/
  | behind (token : Token) (y u : List Char) (hy : Pieces y) (hn : n + (token.render ++ y).length = e.front.length) :
    Views e old new n (token.render ++ (y ++ '"' :: (old ++ '"' :: u)))
      (token.render ++ (y ++ '"' :: (new ++ '"' :: u)))

theorem Replaced.views {n stop depth : Nat} (hn : e.Outside n) (hstop : e.Outside stop)
    (hkey : isKey (Outline.scan e.before) n depth = true) :
    Views e old new n ((e.before.take stop).drop n) ((e.after.take (e.shift stop)).drop (e.shift n)) := by
  rcases hn with hn | hn
  · rcases hstop with hstop | hstop
    · rw [← Edit.take_eq_take hstop, Edit.shift_of_le hn]
      refine .same _ fun k hk => .inl ?_
      have := List.length_take_le stop e.before
      rw [List.length_drop] at hk
      omega
    · rw [Edit.take_before hstop, Edit.take_after h.proper hstop, Edit.shift_of_le hn, Edit.drop_front hn,
        Edit.drop_front hn, h.old_eq, h.new_eq]
      rcases Nat.lt_or_ge n e.front.length with hlt | hge
      · obtain ⟨token, y, hfront, hy⟩ := h.exists_key hlt hkey
        have hlen := congrArg List.length hfront
        rw [List.length_drop] at hlen
        have hn : n + (token.render ++ y).length = e.front.length := by omega
        have hviews : Views e old new n _ _ := .behind token y (e.back.take (stop - e.stop)) hy hn
        rw [hfront]
        simpa using hviews
      · rw [List.drop_eq_nil_of_le hge]
        exact .string _ (ends_take h.ends _)
  · rw [Edit.drop_behind h.proper hn hstop]
    exact .same _ fun k _ => .inr hn

variable {leaf key : List Char} {n stop depth : Nat}

/-- What lies on one side of the string is read the same afterwards. -/
theorem Replaced.slice_shift {slot : Slot} (hside : Aside e n (slot.lead.length + slot.value.length)) :
    (slot.occurrence (e.shift n)).value.slice e.after = (slot.occurrence n).value.slice e.before := by
  rcases hside with hside | hside
  · rw [Edit.shift_of_le (by omega)]
    refine Edit.slice_after_of_le ?_
    show n + slot.lead.length + slot.value.length ≤ _
    omega
  · rw [Slot.occurrence_eq_moved, Slot.occurrence_eq_moved slot n, Occurrence.value_moved, Occurrence.value_moved,
      Span.slice_moved, Span.slice_moved, Edit.drop_eq_drop h.proper hside]

/-- What is read on one side of the string stays. -/
theorem Replaced.kept {slot : Slot} (hside : Aside e n (slot.lead.length + slot.value.length)) :
    Follows (fun found => found.value ≠ inner e)
      (fun found found' => found'.value.slice e.after = found.value.slice e.before)
      (some (slot.occurrence n)) (some (slot.occurrence (e.shift n))) := by
  refine ⟨by rintro ⟨⟩, ?_⟩
  rintro _ ⟨⟩ -
  exact ⟨_, rfl, h.slice_shift hside⟩

/-- Behind its opening quote, the string is read. -/
theorem Replaced.quoted?_old (u : List Char) : quoted? '"' (old ++ '"' :: u) = some ⟨['"'], old, ['"']⟩ := by
  refine quoted?_eq_some_iff.mpr ⟨old, u, fun c hc => ?_, rfl, rfl⟩
  obtain ⟨hquote, hfeed⟩ := h.old_chars c hc
  have hne : c ≠ '"' := by
    rintro rfl
    exact absurd hquote (by decide)
  simp [hne, hfeed]

/-- A key with a value other than the string has it afterwards too. -/
theorem Replaced.leafAt_follows (hleaf : Unquoted leaf) (hn : e.Outside n) (hstop : e.Outside stop) :
    Follows (fun found => found.value ≠ inner e)
      (fun found found' => found'.value.slice e.after = found.value.slice e.before)
      (leafAt (e.before.take stop) (Outline.scan e.before) leaf depth n)
      (leafAt (e.after.take (e.shift stop)) ((Outline.scan e.before).relabel e.shift) leaf depth (e.shift n)) := by
  have hmoved := isKey_shift h.proper h.scan.1 hn depth
  cases hkey : isKey (Outline.scan e.before) n depth with
  | false =>
    rw [leafAt_of_not_isKey hkey, leafAt_of_not_isKey (hmoved.trans hkey)]
    exact Follows.nothing
  | true =>
    have hviews := h.views hn hstop hkey
    rw [leafAt_of_isKey hkey, leafAt_of_isKey (hmoved.trans hkey)]
    generalize (e.before.take stop).drop n = text at hviews
    generalize (e.after.take (e.shift stop)).drop (e.shift n) = text' at hviews
    cases hviews with
    | same _ hside =>
      cases hslot : leaf? leaf text with
      | none => exact Follows.nothing
      | some slot =>
        obtain ⟨rest, rfl⟩ := leaf?_text hslot
        exact h.kept (hside _ (by simp only [List.length_append]; omega))
    | string u hends =>
      have hold : Unquoted old := fun c hc => (h.old_chars c hc).1
      have hnew : Unquoted new := fun c hc => (h.new_chars c hc).1
      rw [leaf?_eq_none (afterKey?_of_ends hleaf hold hends), leaf?_eq_none (afterKey?_of_ends hleaf hnew hends)]
      exact Follows.nothing
    | behind token y u hy hplace =>
      rcases leaf?_pieces hleaf hy token with hnone | ⟨slot, hlen, hslot⟩ | hstring
      · rw [hnone, hnone]
        exact Follows.nothing
      · rw [hslot, hslot]
        exact h.kept (.inl (by omega))
      · -- The value of the key is the string itself.
        rw [hstring, h.quoted?_old]
        refine ⟨by rintro ⟨⟩, ?_⟩
        rintro _ ⟨⟩ hne
        refine absurd ?_ hne
        have hlen := congrArg List.length h.old_eq
        simp only [List.length_append, List.length_cons, List.length_nil] at hlen hplace
        simp only [inner, Slot.occurrence, Slot.behind, Edit.stop, List.length_append, List.length_cons,
          List.length_nil, Span.mk.injEq]
        omega

/-- A key opens the same object afterwards. -/
theorem Replaced.sameObject (hkey : Unquoted key) (hn : e.Outside n) (hstop : e.Outside stop)
    (hplace : isKey (Outline.scan e.before) n depth = true) {P : Occurrence → Prop} : SameObject e P key stop n := by
  have hviews := h.views hn hstop hplace
  have hboth : object? key ((e.after.take (e.shift stop)).drop (e.shift n)) =
      object? key ((e.before.take stop).drop n) ∧
      ∀ k, object? key ((e.before.take stop).drop n) = some k → Aside e n (k + 1) := by
    generalize (e.before.take stop).drop n = text at hviews
    generalize (e.after.take (e.shift stop)).drop (e.shift n) = text' at hviews
    cases hviews with
    | same _ hside => exact ⟨rfl, fun k hk => hside _ (object?_lt_length hk)⟩
    | string u hends =>
      have hold : Unquoted old := fun c hc => (h.old_chars c hc).1
      have hnew : Unquoted new := fun c hc => (h.new_chars c hc).1
      rw [object?_eq_none (afterKey?_of_ends hkey hold hends), object?_eq_none (afterKey?_of_ends hkey hnew hends)]
      exact ⟨rfl, by rintro _ ⟨⟩⟩
    | behind token y u hy hplace =>
      rcases object?_pieces hkey hy token with hnone | ⟨k, hk, hobject⟩
      · rw [hnone, hnone]
        exact ⟨rfl, by rintro _ ⟨⟩⟩
      · rw [hobject, hobject]
        refine ⟨rfl, ?_⟩
        rintro _ ⟨⟩
        exact .inl (by omega)
  obtain ⟨hsame, haside⟩ := hboth
  exact ⟨fun k hk => ⟨hsame ▸ hk, haside k (hsame ▸ hk)⟩, fun k _ hk _ _ => ⟨hsame.trans hk, haside k hk⟩⟩

/-- **Every other value is found again** when a string has been exchanged, for keys without quotes. -/
theorem Replaced.find?_follows {path : KeyPath} (hkeys : ∀ key ∈ path.segments, Unquoted key.toList) :
    Follows (fun found => found.value ≠ inner e)
      (fun found found' => found'.value.slice e.after = found.value.slice e.before)
      (find? e.before path) (find? e.after path) := by
  obtain ⟨hleaf, hparents⟩ := KeyPath.forall_toList (P := Unquoted) hkeys
  obtain ⟨hwithin, hafter⟩ := h.scan
  exact Json.find?_follows h.proper hwithin rfl hafter (fun hn hstop => h.leafAt_follows hleaf hn hstop)
    fun key hkey _ _ _ hn hstop hplace => h.sameObject (hparents key hkey) hn hstop hplace

end Replaced

/-- **A string of a document can be exchanged for any other that does not hide its closing quote.** -/
theorem Document.exists_replaced {d : Document} {path : KeyPath} {span : Span} {new : List Char}
    (h : d.lookup path = some span) (hstring : d.render[span.start - 1]? = some '"')
    (hchars : ∀ c ∈ new, isQuote c = false ∧ c ≠ '\n') (hends : hidesNext new = false) :
    ∃ e old, Replaced e old new ∧ e.before = d.render ∧ span = inner e ∧ span.splice d.render new = e.after := by
  obtain ⟨x, token, y, hrender, hx, hy, hspan⟩ := Document.string_of_lookup h hstring
  let e : Edit := ⟨x, token.render, '"' :: new ++ ['"'], y⟩
  have hreplaced : Replaced e token.text new := {
    old_eq := rfl
    new_eq := rfl
    pieces := hx
    ends := hy
    old_chars := fun c hc => by
      have hinner := token.isInner c hc
      simp only [Outline.isInner, Bool.and_eq_true, bne_iff_ne] at hinner
      exact ⟨token.isQuote c hc, hinner.2⟩
    new_chars := hchars
    old_ends := hidesNext_of_not_mem fun hmem => absurd (token.isInner _ hmem) (by decide)
    new_ends := hends }
  refine ⟨e, token.text, hreplaced, by rw [hrender]; simp [e, Edit.before], ?_, ?_⟩
  · have hlen : token.render.length = token.text.length + 2 := by simp [Token.render]
    have hstop : x.length + 1 + token.text.length = x.length + token.render.length - 1 := by omega
    rw [hspan, hstop]
    rfl
  · let within : Edit := ⟨x ++ ['"'], token.text, new, '"' :: y⟩
    have hbefore : within.before = d.render := by rw [hrender]; simp [within, Edit.before, Token.render]
    have hplace : span = within.oldSpan := by rw [hspan]; simp [within, Edit.oldSpan, Edit.stop]
    have hsplice := within.splice_oldSpan
    rw [hbefore, ← hplace] at hsplice
    refine hsplice.trans ?_
    simp [within, e, Edit.after]

end ManifestBump.Json

import ManifestBump.Proofs.Text.Search
import ManifestBump.Proofs.Text.Span

/-! A text before and after one stretch of it is exchanged.

Places outside of the stretch keep their order and are only moved (`Edit.shift`). So what a search
finds after the edit follows what it found before, as long as the answers at single places do
(`Edit.firstAnswer_follows`). -/
namespace ManifestBump.Text

/-- What was not there before is not there afterwards, and what was there and has `P` has something
there that `Q` relates to it. -/
structure Follows {α β : Type} (P : α → Prop) (Q : α → β → Prop) (before : Option α) (after : Option β) :
    Prop where
  none : before = none → after = none
  some : ∀ a, before = some a → P a → ∃ b, after = some b ∧ Q a b

namespace Follows
variable {α β : Type} {P : α → Prop} {Q : α → β → Prop}

theorem nothing : Follows P Q Option.none Option.none := ⟨fun _ => rfl, by rintro _ ⟨⟩⟩

/-- What stands first is looked at first. -/
theorem or {a b : Option α} {a' b' : Option β} (ha : Follows P Q a a') (hb : Follows P Q b b') :
    Follows P Q (a.or b) (a'.or b') := by
  constructor
  · intro h
    obtain ⟨h₁, h₂⟩ := Option.or_eq_none_iff.mp h
    exact Option.or_eq_none_iff.mpr ⟨ha.none h₁, hb.none h₂⟩
  · intro found h hP
    rcases Option.or_eq_some_iff.mp h with h | ⟨hnone, h⟩
    · obtain ⟨found', hfound', hQ⟩ := ha.some found h hP
      exact ⟨found', Option.or_eq_some_iff.mpr (.inl hfound'), hQ⟩
    · obtain ⟨found', hfound', hQ⟩ := hb.some found h hP
      exact ⟨found', Option.or_eq_some_iff.mpr (.inr ⟨ha.none hnone, hfound'⟩), hQ⟩

end Follows

/-- A text with one stretch that is exchanged for another. -/
structure Edit where
  front : List Char
  old : List Char
  new : List Char
  back : List Char

namespace Edit

/-- The text before. -/
def before (e : Edit) : List Char := e.front ++ e.old ++ e.back

/-- The text afterwards. -/
def after (e : Edit) : List Char := e.front ++ e.new ++ e.back

/-- Where the exchanged stretch ends before. -/
def stop (e : Edit) : Nat := e.front.length + e.old.length

/-- Where a place outside of the stretch lies afterwards. -/
def shift (e : Edit) (n : Nat) : Nat :=
  if n ≤ e.front.length then n else n - e.old.length + e.new.length

/-- A place up to the stretch, or behind it. -/
def Outside (e : Edit) (n : Nat) : Prop := n ≤ e.front.length ∨ e.stop ≤ n

/-- The stretch that is exchanged. -/
def oldSpan (e : Edit) : Span := ⟨e.front.length, e.stop⟩

/-- The stretch it is exchanged for. -/
def newSpan (e : Edit) : Span := ⟨e.front.length, e.front.length + e.new.length⟩

variable (e : Edit)

/-- Neither side of an edit is empty. -/
structure Proper : Prop where
  old_ne : e.old ≠ []
  new_ne : e.new ≠ []

variable {e}

theorem Proper.old_pos (h : e.Proper) : 0 < e.old.length := List.length_pos_iff.mpr h.old_ne

theorem Proper.new_pos (h : e.Proper) : 0 < e.new.length := List.length_pos_iff.mpr h.new_ne

/-! ### Moved places -/

theorem shift_of_le {n : Nat} (h : n ≤ e.front.length) : e.shift n = n := if_pos h

theorem shift_of_stop_le (hp : e.Proper) {n : Nat} (h : e.stop ≤ n) :
    e.shift n = n - e.old.length + e.new.length := by
  have := hp.old_pos
  exact if_neg (by simp only [stop] at h; omega)

/-- Behind the stretch, places move by the same distance. -/
theorem shift_add (hp : e.Proper) {n : Nat} (h : e.stop ≤ n) (k : Nat) :
    e.shift (n + k) = e.shift n + k := by
  rw [shift_of_stop_le hp h, shift_of_stop_le hp (by omega)]
  simp only [stop] at h
  omega

/-- On the same side of the stretch, places move by the same distance. -/
theorem shift_near (hp : e.Proper) {n k : Nat} (h : n + k ≤ e.front.length ∨ e.stop ≤ n) :
    e.Outside (n + k) ∧ e.shift (n + k) = e.shift n + k := by
  rcases h with h | h
  · exact ⟨.inl h, by rw [shift_of_le h, shift_of_le (by omega)]⟩
  · exact ⟨.inr (by omega), shift_add hp h k⟩

theorem shift_lt_shift_iff (hp : e.Proper) {m n : Nat} (hm : e.Outside m) (hn : e.Outside n) :
    e.shift m < e.shift n ↔ m < n := by
  have h₁ := hp.old_pos
  have h₂ := hp.new_pos
  simp only [Outside, stop] at hm hn
  simp only [shift]
  split <;> split <;> omega

theorem shift_le_shift_iff (hp : e.Proper) {m n : Nat} (hm : e.Outside m) (hn : e.Outside n) :
    e.shift m ≤ e.shift n ↔ m ≤ n := by
  have := shift_lt_shift_iff hp hn hm
  omega

/-- Every place afterwards lies in the new stretch, or has been moved there. -/
theorem inside_or_shift (hp : e.Proper) (m : Nat) :
    (e.front.length < m ∧ m < e.front.length + e.new.length) ∨
      ∃ n, e.Outside n ∧ e.shift n = m := by
  have h₁ := hp.old_pos
  have h₂ := hp.new_pos
  by_cases hle : m ≤ e.front.length
  · exact .inr ⟨m, .inl hle, shift_of_le hle⟩
  · by_cases hlt : m < e.front.length + e.new.length
    · exact .inl ⟨by omega, hlt⟩
    · refine .inr ⟨m - e.new.length + e.old.length, .inr (by simp only [stop]; omega), ?_⟩
      rw [shift_of_stop_le hp (by simp only [stop]; omega)]
      omega

theorem length_after (hp : e.Proper) : e.after.length = e.shift e.before.length := by
  rw [shift_of_stop_le hp (by simp [before, stop])]
  simp only [after, before, List.length_append]
  omega

theorem outside_length : e.Outside e.before.length := .inr (by simp [before, stop])

/-! ### Moved cuts -/

/-- A cut in front of the stretch is the same cut afterwards. -/
theorem take_eq_take {n : Nat} (h : n ≤ e.front.length) : e.before.take n = e.after.take (e.shift n) := by
  rw [shift_of_le h, before, after, List.append_assoc, List.append_assoc, List.take_append_of_le_length h,
    List.take_append_of_le_length h]

/-- A cut behind the stretch leaves an edit of a shorter text. -/
theorem take_before {n : Nat} (h : e.stop ≤ n) :
    e.before.take n = e.front ++ e.old ++ e.back.take (n - e.stop) := by
  have hlen : (e.front ++ e.old).length ≤ n := by simpa [stop] using h
  rw [before, List.take_append, List.take_of_length_le hlen]
  simp [stop]

theorem take_after (hp : e.Proper) {n : Nat} (h : e.stop ≤ n) :
    e.after.take (e.shift n) = e.front ++ e.new ++ e.back.take (n - e.stop) := by
  have hshift := shift_of_stop_le hp h
  simp only [stop] at h
  have hlen : (e.front ++ e.new).length ≤ e.shift n := by
    rw [List.length_append]
    omega
  rw [after, List.take_append, List.take_of_length_le hlen]
  congr 2
  rw [List.length_append, stop]
  omega

theorem drop_front {n : Nat} (h : n ≤ e.front.length) (middle back : List Char) :
    (e.front ++ middle ++ back).drop n = e.front.drop n ++ middle ++ back := by
  rw [List.append_assoc, List.drop_append_of_le_length h, ← List.append_assoc]

theorem drop_eq_drop (hp : e.Proper) {n : Nat} (h : e.stop ≤ n) :
    e.before.drop n = e.after.drop (e.shift n) := by
  have hshift := shift_of_stop_le hp h
  simp only [stop] at h
  have hold : (e.front ++ e.old).length ≤ n := by rw [List.length_append]; omega
  have hnew : (e.front ++ e.new).length ≤ e.shift n := by rw [List.length_append]; omega
  have hdrop : ∀ {k : Nat} {first : List Char}, first.length ≤ k →
      (first ++ e.back).drop k = e.back.drop (k - first.length) := by
    intro k first hk
    rw [List.drop_append, List.drop_eq_nil_of_le hk, List.nil_append]
  rw [before, after, hdrop hold, hdrop hnew]
  congr 1
  simp only [List.length_append]
  omega

/-- Behind the stretch the texts are the same, up to any other place outside of it. -/
theorem drop_behind (hp : e.Proper) {n stop : Nat} (hn : e.stop ≤ n) (hstop : e.Outside stop) :
    (e.before.take stop).drop n = (e.after.take (e.shift stop)).drop (e.shift n) := by
  rcases hstop with hstop | hstop
  · have hshift := shift_of_stop_le hp hn
    have hlen : (e.before.take stop).length ≤ e.front.length := (List.length_take_le _ _).trans hstop
    simp only [Edit.stop] at hn
    rw [← take_eq_take hstop, List.drop_eq_nil_of_le (by omega), List.drop_eq_nil_of_le (by omega)]
  · rw [take_before hstop, take_after hp hstop]
    let shorter : Edit := ⟨e.front, e.old, e.new, e.back.take (stop - e.stop)⟩
    have hproper : shorter.Proper := ⟨hp.old_ne, hp.new_ne⟩
    exact drop_eq_drop (e := shorter) hproper hn

/-- What is seen from a place before and afterwards: the same, or the exchange further on. -/
inductive Alike (e : Edit) (n : Nat) : List Char → List Char → Prop where
  | same (text : List Char) : Alike e n text text
  | exchanged (hn : n ≤ e.front.length) (b : List Char) :
    Alike e n (e.front.drop n ++ e.old ++ b) (e.front.drop n ++ e.new ++ b)

/-- **From a place outside of the stretch, the texts look alike**, up to any other such place. -/
theorem alike (hp : e.Proper) {n stop : Nat} (hn : e.Outside n) (hstop : e.Outside stop) :
    e.Alike n ((e.before.take stop).drop n) ((e.after.take (e.shift stop)).drop (e.shift n)) := by
  rcases hn with hn | hn
  · rw [shift_of_le hn]
    rcases hstop with hstop | hstop
    · rw [← take_eq_take hstop]
      exact .same _
    · rw [take_before hstop, take_after hp hstop, drop_front hn, drop_front hn]
      exact .exchanged hn _
  · rw [drop_behind hp hn hstop]
    exact .same _

/-- What lies in front of the stretch reads the same in both texts. -/
theorem slice_after_of_le {s : Span} (h : s.stop ≤ e.front.length) : s.slice e.after = s.slice e.before := by
  have hsame := take_eq_take (e := e) le_rfl
  rw [shift_of_le le_rfl] at hsame
  rw [← Span.slice_take h, ← hsame, Span.slice_take h]

/-- Behind the stretch, what is left is left of both texts. -/
theorem drop_before (e : Edit) (k : Nat) : e.before.drop (e.stop + k) = e.back.drop k := by
  rw [before, stop, ← List.length_append, List.drop_length_add_append]

theorem drop_after (e : Edit) (k : Nat) : e.after.drop (e.front.length + e.new.length + k) = e.back.drop k := by
  rw [after, ← List.length_append, List.drop_length_add_append]

/-- The edit exchanges its stretch. -/
theorem splice_oldSpan (e : Edit) : e.oldSpan.splice e.before e.new = e.after := Span.splice_behind _ _ _ _

/-- A cut of the text at the exchanged stretch. -/
theorem cut_of_oldSpan {x value y : List Char} (h : e.before = x ++ value ++ y)
    (hspan : (⟨x.length, x.length + value.length⟩ : Span) = e.oldSpan) :
    e.front = x ∧ e.old = value ∧ e.back = y := by
  simp only [oldSpan, stop, Span.mk.injEq] at hspan
  obtain ⟨hstart, hstop⟩ := hspan
  rw [before, List.append_assoc, List.append_assoc] at h
  obtain ⟨hfront, hrest⟩ := List.append_inj h hstart.symm
  obtain ⟨hold, hback⟩ := List.append_inj hrest (by omega)
  exact ⟨hfront, hold, hback⟩

/-! ### Moved answers -/

/-- A first answer follows another, when all answers outside of the stretch do, none that matters was
inside of it, and none is inside afterwards. -/
theorem firstAnswer_follows {α β : Type} (hp : e.Proper) {f : Nat → Option α} {g : Nat → Option β}
    {P : α → Prop} {Q : α → β → Prop} (houtside : ∀ n, e.Outside n → Follows P Q (f n) (g (e.shift n)))
    (hplace : ∀ n a, f n = some a → P a → e.Outside n)
    (hinside : ∀ m, e.front.length < m → m < e.front.length + e.new.length → g m = none)
    {start stop : Nat} (hstart : e.Outside start) (hstop : e.Outside stop) :
    Follows P Q (firstAnswer f start stop) (firstAnswer g (e.shift start) (e.shift stop)) := by
  constructor
  · intro h
    rw [firstAnswer_eq_none_iff] at h ⊢
    intro m hs he
    rcases inside_or_shift hp m with ⟨hl, hr⟩ | ⟨n, hn, rfl⟩
    · exact hinside m hl hr
    · exact (houtside n hn).none (h n ((shift_le_shift_iff hp hstart hn).mp hs)
        ((shift_le_shift_iff hp hn hstop).mp he))
  · intro a h hP
    obtain ⟨n, hs, he, hn, hmin⟩ := firstAnswer_eq_some_iff.mp h
    have hout := hplace n a hn hP
    obtain ⟨b, hb, hQ⟩ := (houtside n hout).some a hn hP
    refine ⟨b, firstAnswer_eq_some_iff.mpr ⟨e.shift n, ?_, ?_, hb, ?_⟩, hQ⟩
    · exact (shift_le_shift_iff hp hstart hout).mpr hs
    · exact (shift_le_shift_iff hp hout hstop).mpr he
    · intro m hm hlt
      rcases inside_or_shift hp m with ⟨hl, hr⟩ | ⟨k, hk, rfl⟩
      · exact hinside m hl hr
      · exact (houtside k hk).none (hmin k ((shift_le_shift_iff hp hstart hk).mp hm)
          ((shift_lt_shift_iff hp hk hout).mp hlt))

/-- What was not found before is not found afterwards, and where the old stretch was found the new one is. -/
abbrev Carried (e : Edit) : Option Occurrence → Option Occurrence → Prop :=
  Follows (fun found => found.value = e.oldSpan) fun _ found' => found'.value = e.newSpan

end Edit
end ManifestBump.Text

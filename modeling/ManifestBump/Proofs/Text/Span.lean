import Mathlib
import ManifestBump.Text.Span

/-! Stretches of texts, moved from one text to another. -/
namespace ManifestBump.Text

namespace Span

/-- The stretch `n` characters further on. -/
def moved (n : Nat) (s : Span) : Span := ⟨n + s.start, n + s.stop⟩

@[simp] theorem moved_moved (m n : Nat) (s : Span) : (s.moved n).moved m = s.moved (m + n) := by
  simp [moved, Nat.add_assoc]

/-- A moved stretch is the stretch of what is behind. -/
theorem slice_moved (n : Nat) (s : Span) (text : List Char) : (s.moved n).slice text = s.slice (text.drop n) := by
  simp only [slice, moved]
  rw [← List.drop_drop, List.drop_take, Nat.add_sub_cancel_left]

/-- Where a value lies behind a text. -/
def behind (front value : List Char) : Span := ⟨front.length, front.length + value.length⟩

theorem slice_behind (front value back : List Char) : (behind front value).slice (front ++ value ++ back) = value := by
  rw [slice, behind, ← List.length_append, List.take_left, List.drop_left]

theorem splice_behind (front value back new : List Char) :
    (behind front value).splice (front ++ value ++ back) new = front ++ new ++ back := by
  rw [splice, behind, ← List.length_append, List.drop_left, List.append_assoc front value, List.take_left]

/-- A stretch is told from any longer piece of its text. -/
theorem slice_take {s : Span} {n : Nat} (h : s.stop ≤ n) (text : List Char) :
    s.slice (text.take n) = s.slice text := by
  rw [slice, slice, List.take_take, Nat.min_eq_left h]

end Span

namespace Occurrence

/-- The occurrence `n` characters further on. -/
def moved (n : Nat) (found : Occurrence) : Occurrence := ⟨found.full.moved n, found.value.moved n⟩

@[simp] theorem value_moved (n : Nat) (found : Occurrence) : (found.moved n).value = found.value.moved n := rfl

@[simp] theorem moved_moved (m n : Nat) (found : Occurrence) : (found.moved n).moved m = found.moved (m + n) := by
  simp [moved]

end Occurrence

/-- The value of a slot is a stretch of the text it was taken from. -/
theorem Slot.exists_cut {text rest : List Char} {n stop : Nat} {slot : Slot} (hne : (text.take stop).drop n ≠ [])
    (h : (text.take stop).drop n = slot.lead ++ slot.value ++ rest) :
    ∃ front back, text = front ++ slot.value ++ back ∧ (slot.occurrence n).value = .behind front slot.value := by
  have hlen : n ≤ (text.take stop).length := by
    by_contra hlt
    exact hne (List.drop_eq_nil_of_le (by omega))
  refine ⟨(text.take stop).take n ++ slot.lead, rest ++ text.drop stop, ?_, ?_⟩
  · conv_lhs => rw [← List.take_append_drop stop text, ← List.take_append_drop n (text.take stop), h]
    simp
  · simp only [occurrence, Span.behind, List.length_append, List.length_take_of_le hlen]

/-- A slot is found where its text stands. -/
theorem Slot.occurrence_eq_moved (slot : Slot) (offset : Nat) :
    slot.occurrence offset = (slot.occurrence 0).moved offset := by
  simp only [Slot.occurrence, Occurrence.moved, Span.moved, Nat.zero_add, Nat.add_zero, Nat.add_assoc]

end ManifestBump.Text

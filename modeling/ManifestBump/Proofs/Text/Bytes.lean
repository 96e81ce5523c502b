import ManifestBump.Proofs.Text.Search
import ManifestBump.Proofs.Text.Span

/-! Texts counted in bytes, with every cut checked.

A text in UTF-8 can be cut at the offsets where characters begin, and at its end; any other cut fails (`cut?`). What is
done here in bytes fails as soon as one of its cuts does. Where a character begins, no cut fails (`cut?_byteOffset`), so
stretches of characters can be read in bytes (`Span.read?_inBytes`). -/
namespace ManifestBump.Text

/-! ### Offsets in bytes -/

theorem byteSize_eq_utf8ByteSize (text : List Char) : byteSize text = (String.ofList text).utf8ByteSize := by
  induction text with
  | nil => simp
  | cons c text ih =>
    rw [byteSize_cons, ih, show c :: text = [c] ++ text from rfl, String.ofList_append, String.utf8ByteSize_append,
      ← String.singleton_eq_ofList, String.utf8ByteSize_singleton]

theorem byteSize_toList (text : String) : byteSize text.toList = text.utf8ByteSize := by
  rw [byteSize_eq_utf8ByteSize, String.ofList_toList]

theorem byteOffset_length (text : List Char) : byteOffset text text.length = byteSize text := by
  rw [byteOffset, List.take_length]

theorem byteOffset_add (text : List Char) (n k : Nat) :
    byteOffset text (n + k) = byteOffset text n + byteSize ((text.drop n).take k) := by
  rw [byteOffset, byteOffset, List.take_add, byteSize_append]

/-- Behind a piece of the text, the offset is larger by its size. -/
theorem byteOffset_add_length {text piece rest : List Char} {n stop : Nat}
    (h : (text.take stop).drop n = piece ++ rest) :
    byteOffset text (n + piece.length) = byteOffset text n + byteSize piece := by
  rw [List.drop_take] at h
  have hlen := congrArg List.length h
  rw [List.length_append] at hlen
  have hle : piece.length ≤ stop - n := by
    have := List.length_take_le (stop - n) (text.drop n)
    omega
  have hpiece := congrArg (List.take piece.length) h
  rw [List.take_take, Nat.min_eq_left hle, List.take_left] at hpiece
  rw [byteOffset_add, hpiece]

/-- In front of a cut, offsets are those of the whole text. -/
theorem byteOffset_take {n stop : Nat} (h : n ≤ stop) (text : List Char) :
    byteOffset (text.take stop) n = byteOffset text n := by
  rw [byteOffset, byteOffset, List.take_take, Nat.min_eq_left h]

theorem byteSize_pos {text : List Char} (h : text ≠ []) : 0 < byteSize text := by
  obtain ⟨c, rest, rfl⟩ := List.exists_cons_of_ne_nil h
  have := c.utf8Size_pos
  rw [byteSize_cons]
  omega

theorem byteOffset_le {text : List Char} {m n : Nat} (h : m ≤ n) : byteOffset text m ≤ byteOffset text n := by
  obtain ⟨k, rfl⟩ := Nat.exists_eq_add_of_le h
  rw [byteOffset_add]
  exact Nat.le_add_right _ _

theorem byteOffset_le_byteSize (text : List Char) (n : Nat) : byteOffset text n ≤ byteSize text := by
  rcases Nat.le_total n text.length with h | h
  · rw [← byteOffset_length]
    exact byteOffset_le h
  · rw [byteOffset, List.take_of_length_le h]

theorem byteOffset_lt {text : List Char} {m n : Nat} (hlt : m < n) (hle : n ≤ text.length) :
    byteOffset text m < byteOffset text n := by
  obtain ⟨k, rfl⟩ := Nat.exists_eq_add_of_lt hlt
  rw [Nat.add_assoc, byteOffset_add]
  have hne : (text.drop m).take (k + 1) ≠ [] := by
    rw [← List.length_pos_iff, List.length_take, List.length_drop]
    omega
  have := byteSize_pos hne
  omega

theorem byteOffset_lt_iff {text : List Char} {m n : Nat} (hm : m ≤ text.length) (hn : n ≤ text.length) :
    byteOffset text m < byteOffset text n ↔ m < n := by
  constructor
  · intro h
    by_contra hle
    rcases Nat.lt_or_eq_of_le (Nat.le_of_not_lt hle) with hlt | rfl
    · have := byteOffset_lt hlt hm
      omega
    · omega
  · exact fun h => byteOffset_lt h hn

/-- The place behind a character is as many bytes further as the character takes. -/
theorem byteOffset_succ {text rest : List Char} {n : Nat} {c : Char} (h : text.drop n = c :: rest) :
    byteOffset text (n + 1) = byteOffset text n + c.utf8Size := by
  rw [byteOffset_add, h, List.take_succ_cons, List.take_zero, byteSize_cons, byteSize_nil, Nat.add_zero]

/-! ### Cuts -/

/-- The two pieces of a text at a byte offset. There are none behind its end and none inside of a character. -/
def cut? : (text : List Char) → (offset : Nat) → Option (List Char × List Char)
  | text, 0 => some ([], text)
  | [], _ + 1 => none
  | c :: text, n + 1 =>
    if c.utf8Size ≤ n + 1 then (cut? text (n + 1 - c.utf8Size)).map fun pieces => (c :: pieces.1, pieces.2) else none

/-- **A cut parts a text in two.** -/
theorem cut?_eq_some_iff {text front back : List Char} {n : Nat} :
    cut? text n = some (front, back) ↔ text = front ++ back ∧ n = byteSize front := by
  constructor
  · intro h
    induction text, n using cut?.induct generalizing front with
    | case1 text =>
      rw [cut?] at h
      cases h
      exact ⟨rfl, rfl⟩
    | case2 => cases h
    | case3 c text n hle ih =>
      rw [cut?, if_pos hle] at h
      obtain ⟨⟨front', back'⟩, hcut, heq⟩ := Option.map_eq_some_iff.mp h
      cases heq
      obtain ⟨rfl, hsize⟩ := ih hcut
      refine ⟨rfl, ?_⟩
      rw [byteSize_cons, ← hsize]
      omega
    | case4 c text n hgt =>
      rw [cut?, if_neg hgt] at h
      cases h
  · rintro ⟨rfl, rfl⟩
    induction front with
    | nil =>
      rw [List.nil_append, byteSize_nil]
      cases back <;> rfl
    | cons c front ih =>
      have hpos := c.utf8Size_pos
      obtain ⟨k, hk⟩ : ∃ k, byteSize (c :: front) = k + 1 := ⟨byteSize (c :: front) - 1, by rw [byteSize_cons]; omega⟩
      have hrest : k + 1 - c.utf8Size = byteSize front := by
        rw [← hk, byteSize_cons, Nat.add_sub_cancel_left]
      rw [byteSize_cons] at hk
      rw [byteSize_cons, hk, List.cons_append, cut?, if_pos (by omega), hrest, ih]
      rfl

theorem cut?_append (front back : List Char) : cut? (front ++ back) (byteSize front) = some (front, back) :=
  cut?_eq_some_iff.mpr ⟨rfl, rfl⟩

/-- The offsets where a text can be cut are those that are valid positions of it as a string. -/
theorem isSome_cut?_iff {text : List Char} {n : Nat} :
    (cut? text n).isSome = true ↔ String.Pos.Raw.IsValid (String.ofList text) ⟨n⟩ := by
  rw [String.Pos.Raw.isValid_iff_exists_append, Option.isSome_iff_exists]
  constructor
  · rintro ⟨⟨front, back⟩, h⟩
    obtain ⟨rfl, rfl⟩ := cut?_eq_some_iff.mp h
    exact ⟨String.ofList front, String.ofList back, String.ofList_append, by rw [byteSize_eq_utf8ByteSize]; rfl⟩
  · rintro ⟨front, back, htext, hn⟩
    refine ⟨(front.toList, back.toList), cut?_eq_some_iff.mpr ⟨?_, ?_⟩⟩
    · rw [← String.toList_append, ← htext, String.toList_ofList]
    · rw [byteSize_eq_utf8ByteSize, String.ofList_toList]
      exact congrArg String.Pos.Raw.byteIdx hn

/-- **A text can be cut where a character begins.** -/
theorem cut?_byteOffset {text : List Char} {n : Nat} :
    cut? text (byteOffset text n) = some (text.take n, text.drop n) :=
  cut?_eq_some_iff.mpr ⟨(List.take_append_drop n text).symm, rfl⟩

theorem isValid_byteOffset (text : List Char) (n : Nat) :
    String.Pos.Raw.IsValid (String.ofList text) ⟨byteOffset text n⟩ :=
  isSome_cut?_iff.mp (by rw [cut?_byteOffset]; rfl)

/-- One character further; one byte at the end of the text. -/
def next? (text : List Char) (n : Nat) : Option Nat := do
  let (_, rest) ← cut? text n
  return n + (rest.head?.map Char.utf8Size).getD 1

theorem next?_byteOffset {text : List Char} {n : Nat} (h : n < text.length) :
    next? text (byteOffset text n) = some (byteOffset text (n + 1)) := by
  obtain ⟨c, rest, hrest⟩ := List.exists_cons_of_ne_nil (List.ne_nil_of_length_pos (l := text.drop n) (by simp; omega))
  rw [byteOffset_succ hrest, next?, cut?_byteOffset]
  simp [hrest]

namespace Span

/-- What stands from one byte offset up to another. -/
def read? (s : Span) (text : List Char) : Option (List Char) := do
  let (front, _) ← cut? text s.stop
  let (_, value) ← cut? front s.start
  return value

/-- The text with what stands there exchanged for `new`. -/
def exchange? (s : Span) (text new : List Char) : Option (List Char) := do
  let (behind, back) ← cut? text s.stop
  let (front, _) ← cut? behind s.start
  return front ++ new ++ back

/-- **Between the cuts stands a value.** -/
theorem read?_eq_some_iff {s : Span} {text value : List Char} : s.read? text = some value ↔
    ∃ front back, text = front ++ value ++ back ∧ s = ⟨byteSize front, byteSize (front ++ value)⟩ := by
  obtain ⟨start, stop⟩ := s
  constructor
  · intro h
    obtain ⟨⟨behind, back⟩, hstop, h⟩ := Option.bind_eq_some_iff.mp h
    obtain ⟨⟨front, value'⟩, hstart, h⟩ := Option.bind_eq_some_iff.mp h
    cases h
    obtain ⟨rfl, rfl⟩ := cut?_eq_some_iff.mp hstop
    obtain ⟨rfl, rfl⟩ := cut?_eq_some_iff.mp hstart
    exact ⟨front, back, rfl, rfl⟩
  · rintro ⟨front, back, rfl, heq⟩
    cases heq
    simp only [read?, cut?_append, Option.bind_eq_bind, Option.bind_some, Option.pure_def]

theorem exchange?_append (front value back new : List Char) :
    exchange? ⟨byteSize front, byteSize (front ++ value)⟩ (front ++ value ++ back) new =
      some (front ++ new ++ back) := by
  simp only [exchange?, cut?_append, Option.bind_eq_bind, Option.bind_some, Option.pure_def]

/-- A value behind a text, in bytes. -/
theorem inBytes_behind (front value back : List Char) :
    (behind front value).inBytes (front ++ value ++ back) = ⟨byteSize front, byteSize (front ++ value)⟩ := by
  simp only [inBytes, behind, byteOffset]
  rw [← List.length_append, List.take_left, List.append_assoc, List.take_left]

/-- A stretch of characters can be read in bytes. -/
theorem read?_inBytes {s : Span} {text : List Char} (h : s.start ≤ s.stop) :
    (s.inBytes text).read? text = some (s.slice text) := by
  refine read?_eq_some_iff.mpr ⟨text.take s.start, text.drop s.stop, ?_, ?_⟩
  · have htake : text.take s.start = (text.take s.stop).take s.start := by rw [List.take_take, Nat.min_eq_left h]
    rw [slice, htake, List.take_append_drop, List.take_append_drop]
  · have htake : text.take s.start = (text.take s.stop).take s.start := by rw [List.take_take, Nat.min_eq_left h]
    rw [slice, inBytes, byteOffset, byteOffset, htake, List.take_append_drop]

end Span

/-- The text up to a place can be read in bytes. -/
theorem read?_front (text : List Char) (n : Nat) : Span.read? ⟨0, byteOffset text n⟩ text = some (text.take n) := by
  have h : (Span.inBytes ⟨0, n⟩ text).read? text = some (Span.slice ⟨0, n⟩ text) := Span.read?_inBytes (Nat.zero_le n)
  rwa [Span.inBytes, byteOffset, List.take_zero, byteSize_nil, Span.slice, List.drop_zero] at h

/-- Where the value of a slot lies, when the slot begins at a byte offset. -/
def Slot.place (s : Slot) (offset : Nat) : Span :=
  ⟨offset + byteSize s.lead, offset + byteSize s.lead + byteSize s.value⟩

theorem Slot.place_eq {text rest : List Char} {n stop : Nat} {slot : Slot}
    (h : (text.take stop).drop n = slot.lead ++ slot.value ++ rest) :
    slot.place (byteOffset text n) = (slot.occurrence n).value.inBytes text := by
  rw [List.append_assoc] at h
  have hvalue : (text.take stop).drop (n + slot.lead.length) = slot.value ++ rest := by
    rw [← List.drop_drop, h, List.drop_left]
  simp only [place, occurrence, Span.inBytes, byteOffset_add_length hvalue, byteOffset_add_length h]

/-- The same place counted in bytes. -/
def Cursor.inBytes (text : List Char) (cursor : Cursor) : Cursor :=
  { cursor with offset := byteOffset text cursor.offset }

end ManifestBump.Text

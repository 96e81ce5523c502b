import ManifestBump.Text.Basic

/-! Stretches of a text, and the place a value takes in it. -/
namespace ManifestBump.Text

/-- From one offset up to another. -/
structure Span where
  start : Nat
  stop : Nat
deriving DecidableEq, Repr

namespace Span

/-- The whole of a text. -/
def all (text : List Char) : Span := ⟨0, text.length⟩

/-- Whether an offset lies inside. -/
def contains (s : Span) (n : Nat) : Bool := s.start ≤ n && n < s.stop

/-- The characters of a stretch. -/
def slice (s : Span) (text : List Char) : List Char := (text.take s.stop).drop s.start

/-- The text with a stretch exchanged for `new`. -/
def splice (s : Span) (text new : List Char) : List Char :=
  text.take s.start ++ new ++ text.drop s.stop

/-- The same stretch counted in bytes. -/
def inBytes (s : Span) (text : List Char) : Span :=
  ⟨byteOffset text s.start, byteOffset text s.stop⟩

end Span

/-- What a lookup takes from a text: what leads to the value, the value, and what closes it. -/
structure Slot where
  lead : List Char
  value : List Char
  close : List Char
deriving DecidableEq, Repr

/-- With more text in front. -/
def Slot.behind (lead : List Char) (s : Slot) : Slot := { s with lead := lead ++ s.lead }

/-- Where a key was found: everything that was matched, and the value alone. -/
structure Occurrence where
  full : Span
  value : Span
deriving DecidableEq, Repr

/-- The occurrence of a slot that begins at an offset. -/
def Slot.occurrence (s : Slot) (offset : Nat) : Occurrence :=
  let start := offset + s.lead.length
  let stop := start + s.value.length
  ⟨⟨offset, stop + s.close.length⟩, ⟨start, stop⟩⟩

end ManifestBump.Text

/-! The order of names with numbers in them, such as those of tags.

Where two names first differ, what they agree on up to there decides how the difference counts.
Within whole numbers, the longer run of digits is the larger. Digits behind leading zeros are
those of a fraction, so there they count one by one, and a number with more leading zeros comes
first. Everywhere else characters count by their code. -/
namespace ManifestBump.Text

/-- What the text that two names agree on ends with. -/
inductive Ending where
  | other
  /-- Digits of a number without leading zeros. -/
  | whole
  /-- Zeros at the beginning of a number. -/
  | zeros
  /-- Digits of a number with leading zeros. -/
  | fraction
deriving DecidableEq, Repr

/-- What a text ends with after one more character. -/
def Ending.after (ending : Ending) (c : Char) : Ending :=
  if !c.isDigit then .other
  else
    match ending with
    | .other => if c = '0' then .zeros else .whole
    | .zeros => if c = '0' then .zeros else .fraction
    | .whole => .whole
    | .fraction => .fraction

/-- How many digits stand at the front. -/
def digitRun (text : List Char) : Nat := (text.takeWhile Char.isDigit).length

/-- The order of two texts where they begin to differ, by the characters there. -/
def compareCodes : (s t : List Char) → Ordering
  | [], [] => .eq
  | [], _ :: _ => .lt
  | _ :: _, [] => .gt
  | a :: _, b :: _ => compare a.toNat b.toNat

/-- The order of two texts where they begin to differ, by the length of the digits there. -/
def compareRuns (s t : List Char) : Ordering :=
  (compare (digitRun s) (digitRun t)).then (compareCodes s t)

/-- The order of two texts where they begin to differ, behind a text with some ending. -/
def compareBehind (ending : Ending) (s t : List Char) : Ordering :=
  let first := s.head?.any Char.isDigit
  let second := t.head?.any Char.isDigit
  match ending, first, second with
  | .other, true, true =>
    if s.head? = some '0' ∨ t.head? = some '0' then compareCodes s t else compareRuns s t
  | .whole, true, true => compareRuns s t
  | .whole, true, false => .gt
  | .whole, false, true => .lt
  | .zeros, true, false => .lt
  | .zeros, false, true => .gt
  | _, _, _ => compareCodes s t

/-- The order of two names behind a text with some ending that they agree on. -/
def compareNamesFrom (ending : Ending) : (s t : List Char) → Ordering
  | a :: s, b :: t =>
    if a = b then compareNamesFrom (ending.after a) s t
    else compareBehind ending (a :: s) (b :: t)
  | s, t => compareBehind ending s t

/-- The order of two names. -/
def compareNames (s t : String) : Ordering := compareNamesFrom .other s.toList t.toList

end ManifestBump.Text

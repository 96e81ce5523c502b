import ManifestBump.Version.Basic

/-! Reading versions, strictly and in the shortened forms manifests use.

A reader takes its part from the front of the text and returns the rest, so the first fault
from the left is the one reported. -/
namespace ManifestBump

namespace Version

/-! ### Numbers -/

/-- A decimal digit. -/
def isDigit (c : Char) : Bool := '0' ≤ c && c ≤ '9'

/-- The value of decimal digits. -/
def decimal (digits : List Char) : Nat := Nat.ofDigitChars 10 digits 0

/-- A number without leading zeros that fits in a word. -/
def number (part : Part) (text : List Char) : Except Fault (UInt64 × List Char) :=
  let digits := text.takeWhile isDigit
  let rest := text.dropWhile isDigit
  match digits with
  | [] => .error (match rest with | c :: _ => .unexpected c part | [] => .ended part)
  | d :: more =>
    if d = '0' ∧ more ≠ [] then .error (.leadingZero part)
    else if h : decimal digits < UInt64.size then .ok (UInt64.ofNatLT (decimal digits) h, rest)
    else .error (.tooLarge part)

/-- The dot behind a number. -/
def dot (part : Part) : List Char → Except Fault (List Char)
  | '.' :: rest => .ok rest
  | c :: _ => .error (.unexpectedAfter c part)
  | [] => .error (.ended part)

/-! ### Identifiers -/

/-- A character of an identifier. -/
def isIdentifierChar (c : Char) : Bool := c.isAlphanum || c == '-'

/-- What is wrong with one identifier. Pre-release identifiers of digits only are numbers, so
they have no leading zero. -/
def identifierFault (part : Part) (identifier : List Char) : Option Fault :=
  if identifier.isEmpty then some (.emptySegment part)
  else if part = .pre ∧ identifier.all isDigit ∧ identifier.head? = some '0'
      ∧ 1 < identifier.length then
    some (.leadingZero part)
  else none

/-- Identifiers with dots between them, as far as they go. -/
def identifiers (part : Part) (text : List Char) : Except Fault (List String × List Char) :=
  let isBody (c : Char) : Bool := isIdentifierChar c || c == '.'
  let found := (text.takeWhile isBody).splitOn '.'
  match found.findSome? (identifierFault part) with
  | some fault => .error fault
  | none => .ok (found.map String.ofList, text.dropWhile isBody)

/-- The identifiers behind a mark, if the mark is there. -/
def marked (mark : Char) (part : Part) (before : Part) :
    List Char → Except Fault (List String × Part × List Char)
  | c :: rest =>
    if c = mark then
      match identifiers part rest with
      | .ok (found, rest) => .ok (found, part, rest)
      | .error fault => .error fault
    else .ok ([], before, c :: rest)
  | [] => .ok ([], before, [])

/-! ### Versions -/

/-- Reads `major.minor.patch`, then `-pre` and `+build` if they are there, and nothing else. -/
def parse (text : List Char) : Except Fault Version := do
  let (major, text) ← number .major text
  let text ← dot .major text
  let (minor, text) ← number .minor text
  let text ← dot .minor text
  let (patch, text) ← number .patch text
  let (pre, last, text) ← marked '-' .pre .patch text
  let (build, last, text) ← marked '+' .build last text
  match text with
  | [] => .ok ⟨major, minor, patch, pre, build⟩
  | c :: _ => .error (.unexpectedAfter c last)

end Version

namespace Release

/-- A shortened form filled up to three numbers. Only a text without identifiers is shortened. -/
def padded (body : List Char) : List Char :=
  let isPlain := !body.any fun c => c == '-' || c == '+'
  match body.count '.' with
  | 0 => if isPlain then body ++ ['.', '0', '.', '0'] else body
  | 1 => if isPlain then body ++ ['.', '0'] else body
  | _ => body

/-- Reads `1.2.3`, `1.2` or `1`, with or without a leading `v`. -/
def parse (text : String) : Except VersionError Release :=
  let (marked, body) : Bool × List Char :=
    match text.toList with
    | 'v' :: rest => (true, rest)
    | body => (false, body)
  match Version.parse (padded body) with
  | .ok version => .ok ⟨version, marked⟩
  | .error fault => .error (.invalid text fault)

end Release

end ManifestBump

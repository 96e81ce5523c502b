import ManifestBump.Text.Span

/-! The outline of a JSON text: where its strings and comments lie, and how deep its braces go.

Braces inside strings and comments are no structure, and a key inside a comment is no key, so
both are found in one pass from the left. The text need not be well formed. -/
namespace ManifestBump.Outline
open Text

/-- A brace outside every literal, and the depth behind it. -/
structure Brace where
  offset : Nat
  depth : Nat
deriving DecidableEq, Repr

/-- What the scan is in the middle of, and where that began. -/
inductive Mode where
  | code
  | string (quote : Char) (start : Nat)
  | lineComment (start : Nat)
  | blockComment (start : Nat)
deriving DecidableEq, Repr

end Outline

/-- Literals (strings and comments) and structural braces, each in the order of the text. -/
structure Outline where
  literals : List Text.Span
  braces : List Outline.Brace
deriving DecidableEq, Repr

namespace Outline
open Text

/-- With one more literal in front. -/
def addLiteral (start stop : Nat) (o : Outline) : Outline :=
  { o with literals := ⟨start, stop⟩ :: o.literals }

/-- With one more brace in front. -/
def addBrace (offset depth : Nat) (o : Outline) : Outline :=
  { o with braces := ⟨offset, depth⟩ :: o.braces }

/-- The outline of what follows an offset at a depth. A backslash in a string hides the next
character; a string ends at its quote, or unfinished before a line feed. -/
def scanFrom : Mode → (offset depth : Nat) → List Char → Outline
  | .code, _, _, [] => ⟨[], []⟩
  | .code, n, d, '/' :: '/' :: rest => scanFrom (.lineComment n) (n + 2) d rest
  | .code, n, d, '/' :: '*' :: rest => scanFrom (.blockComment n) (n + 2) d rest
  | .code, n, d, '\x7b' :: rest => addBrace n (d + 1) (scanFrom .code (n + 1) (d + 1) rest)
  | .code, n, d, '\x7d' :: rest => addBrace n (d - 1) (scanFrom .code (n + 1) (d - 1) rest)
  | .code, n, d, c :: rest =>
    if c = '"' ∨ c = '\'' then scanFrom (.string c n) (n + 1) d rest
    else scanFrom .code (n + 1) d rest
  | .string _ s, n, _, [] => addLiteral s n ⟨[], []⟩
  | .string _ s, n, _, ['\\'] => addLiteral s (n + 1) ⟨[], []⟩
  | .string q s, n, d, '\\' :: _ :: rest => scanFrom (.string q s) (n + 2) d rest
  | .string q s, n, d, c :: rest =>
    if c = q then addLiteral s (n + 1) (scanFrom .code (n + 1) d rest)
    else if c = '\n' then addLiteral s n (scanFrom .code (n + 1) d rest)
    else scanFrom (.string q s) (n + 1) d rest
  | .lineComment s, n, _, [] => addLiteral s n ⟨[], []⟩
  | .lineComment s, n, d, c :: rest =>
    if c = '\n' then addLiteral s n (scanFrom .code (n + 1) d rest)
    else scanFrom (.lineComment s) (n + 1) d rest
  | .blockComment s, n, _, [] => addLiteral s n ⟨[], []⟩
  | .blockComment s, n, d, '*' :: '/' :: rest => addLiteral s (n + 2) (scanFrom .code (n + 2) d rest)
  | .blockComment s, n, d, _ :: rest => scanFrom (.blockComment s) (n + 1) d rest

/-- The outline of a text. -/
def scan (text : List Char) : Outline := scanFrom .code 0 0 text

/-! ### Questions -/

/-- How many objects are open at an offset. -/
def depthAt (o : Outline) (offset : Nat) : Nat :=
  match (o.braces.takeWhile (·.offset < offset)).getLast? with
  | some brace => brace.depth
  | none => 0

/-- Where the object opened at an offset closes. -/
def closingBrace? (o : Outline) (opening : Nat) : Option Nat :=
  match o.braces.dropWhile (·.offset < opening) with
  | [] => none
  | brace :: later => (later.find? (·.depth < brace.depth)).map Brace.offset

/-- Whether a literal begins at an offset. -/
def startsLiteral (o : Outline) (offset : Nat) : Bool := o.literals.any (·.start == offset)

/-- Whether an offset lies in a literal. -/
def inLiteral (o : Outline) (offset : Nat) : Bool := o.literals.any (·.contains offset)

end Outline

end ManifestBump

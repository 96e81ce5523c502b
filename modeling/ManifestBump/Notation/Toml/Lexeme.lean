import ManifestBump.Notation.Json.Lexeme

/-! The smallest parts of TOML: space, line ends, keys, strings, numbers and dates. -/
namespace ManifestBump.Notation.Toml

/-- Takes something from the front of a text, if it is there. -/
abbrev Reader (α : Type) := List Char → Option (α × List Char)

/-- Space on a line. -/
def isSpace (c : Char) : Bool := c == ' ' || c == '\t'

/-- A character that may stand in a comment or a literal string: anything but a control character,
except the tab. -/
def isVisible (c : Char) : Bool := c == '\t' || (32 ≤ c.toNat && c.toNat != 127)

/-- The text without leading space. -/
def skipSpace (text : List Char) : List Char := text.dropWhile isSpace

/-- What is left behind a line end. -/
def newline? : List Char → Option (List Char)
  | '\n' :: text => some text
  | '\r' :: '\n' :: text => some text
  | _ => none

/-- The text without a leading comment. -/
def skipComment : List Char → List Char
  | '#' :: text => text.dropWhile isVisible
  | text => text

/-- What is left behind the end of a line that holds nothing more but a comment. -/
def endLine? (text : List Char) : Option (List Char) :=
  match skipComment (skipSpace text) with
  | [] => some []
  | text => newline? text

/-! ### Strings -/

/-- A character written by its number in hexadecimal. -/
def numbered? (digits : List Char) : Option Char := do
  let values ← digits.mapM Json.hexDigit?
  let n := values.foldl (fun n d => 16 * n + d) 0
  if h : n.isValidChar then some (Char.ofNatAux n h) else none

/-- The character of an escape, and how many characters it takes behind the backslash. -/
def escape? : List Char → Option (Char × Nat)
  | 'b' :: _ => some ('\x08', 1)
  | 't' :: _ => some ('\t', 1)
  | 'n' :: _ => some ('\n', 1)
  | 'f' :: _ => some ('\x0c', 1)
  | 'r' :: _ => some ('\r', 1)
  | '"' :: _ => some ('"', 1)
  | '\\' :: _ => some ('\\', 1)
  | 'u' :: text => if text.length < 4 then none else (numbered? (text.take 4)).map (·, 5)
  | 'U' :: text => if text.length < 8 then none else (numbered? (text.take 8)).map (·, 9)
  | _ => none

/-- With one more character in front. -/
def push (c : Char) : List Char × List Char → List Char × List Char
  | (cs, rest) => (c :: cs, rest)

/-- A basic string on one line, behind its quote and `skip` more characters. -/
def basicFrom : (skip : Nat) → Reader (List Char)
  | _, [] => none
  | skip + 1, _ :: text => basicFrom skip text
  | 0, '"' :: text => some ([], text)
  | 0, '\\' :: text =>
    match escape? text with
    | none => none
    | some (c, used) => (basicFrom used text).map (push c)
  | 0, c :: text => if isVisible c then (basicFrom 0 text).map (push c) else none

/-- How much space and how many line ends a backslash at the end of a line takes with it. -/
def lineFold? (text : List Char) : Option Nat :=
  let space := text.takeWhile isSpace
  match newline? (text.dropWhile isSpace) with
  | none => none
  | some _ =>
    let isGap (c : Char) : Bool := isSpace c || c == '\n' || c == '\r'
    some (max space.length (text.takeWhile isGap).length)

/-- The quotes that end a string of many lines: three, and up to two more that belong to it. -/
def closing? (quote : Char) (text : List Char) : Option (List Char × List Char) :=
  let run := (text.takeWhile (· == quote)).length
  if 3 ≤ run then
    let extra := min (run - 3) 2
    some (List.replicate extra quote, text.drop (extra + 3))
  else none

/-- A basic string of many lines, behind its quotes and `skip` more characters. -/
def basicLinesFrom : (skip : Nat) → Reader (List Char)
  | _, [] => none
  | skip + 1, _ :: text => basicLinesFrom skip text
  | 0, '\\' :: text =>
    match lineFold? text with
    | some used => basicLinesFrom used text
    | none =>
      match escape? text with
      | none => none
      | some (c, used) => (basicLinesFrom used text).map (push c)
  | 0, c :: text =>
    match closing? '"' (c :: text) with
    | some found => some found
    | none =>
      match c, text with
      | '\n', _ => (basicLinesFrom 0 text).map (push '\n')
      | '\r', '\n' :: _ => (basicLinesFrom 1 text).map (push '\n')
      | c, _ => if isVisible c then (basicLinesFrom 0 text).map (push c) else none

/-- A literal string on one line, behind its quote. -/
def literal? (text : List Char) : Option (List Char × List Char) :=
  let isInner (c : Char) : Bool := c != '\'' && isVisible c
  match text.dropWhile isInner with
  | '\'' :: rest => some (text.takeWhile isInner, rest)
  | _ => none

/-- A literal string of many lines, behind its quotes and `skip` more characters. -/
def literalLinesFrom : (skip : Nat) → Reader (List Char)
  | _, [] => none
  | skip + 1, _ :: text => literalLinesFrom skip text
  | 0, c :: text =>
    match closing? '\'' (c :: text) with
    | some found => some found
    | none =>
      match c, text with
      | '\n', _ => (literalLinesFrom 0 text).map (push '\n')
      | '\r', '\n' :: _ => (literalLinesFrom 1 text).map (push '\n')
      | c, _ => if isVisible c then (literalLinesFrom 0 text).map (push c) else none

/-- The text without the line end that may follow the opening quotes of a string of many lines. -/
def skipNewline (text : List Char) : List Char := (newline? text).getD text

/-- A string of any kind. -/
def string? : Reader String := fun text =>
  let found : Option (List Char × List Char) :=
    match text with
    | '"' :: '"' :: '"' :: text => basicLinesFrom 0 (skipNewline text)
    | '"' :: text => basicFrom 0 text
    | '\'' :: '\'' :: '\'' :: text => literalLinesFrom 0 (skipNewline text)
    | '\'' :: text => literal? text
    | _ => none
  found.map fun (cs, rest) => (String.ofList cs, rest)

/-! ### Keys -/

/-- A character of a key without quotes. -/
def isKeyChar (c : Char) : Bool := c.isAlphanum || c == '_' || c == '-'

/-- One key. -/
def simpleKey? : Reader String := fun text =>
  match text with
  | '"' :: text => (basicFrom 0 text).map fun (cs, rest) => (String.ofList cs, rest)
  | '\'' :: text => (literal? text).map fun (cs, rest) => (String.ofList cs, rest)
  | text =>
    let found := text.takeWhile isKeyChar
    if found.isEmpty then none else some (String.ofList found, text.dropWhile isKeyChar)

/-- Keys with dots between them. -/
def dottedKey? : (bound : Nat) → Reader (List String)
  | 0, _ => none
  | bound + 1, text => do
    let (key, text) ← simpleKey? (skipSpace text)
    match skipSpace text with
    | '.' :: text => (dottedKey? bound text).map fun (keys, rest) => (key :: keys, rest)
    | text => some ([key], text)

/-- How deep values may lie in each other, and how many keys a dotted key may have. -/
def maxDepth : Nat := 79

/-- A key path, with the space around it. -/
def key? : Reader (List String) := dottedKey? maxDepth

/-! ### Numbers and dates -/

/-- Digits of some kind, with single underscores between them, taken without the underscores. -/
def grouped? (isDigit : Char → Bool) : List Char → Option (List Char)
  | [] => none
  | [c] => if isDigit c then some [c] else none
  | c :: '_' :: text => if isDigit c then (grouped? isDigit text).map (c :: ·) else none
  | c :: text => if isDigit c then (grouped? isDigit text).map (c :: ·) else none

/-- Decimal digits of a whole number: a zero stands alone. -/
def units? (text : List Char) : Option (List Char) := do
  let digits ← grouped? Json.isDigit text
  if digits.head? = some '0' ∧ 1 < digits.length then none else some digits

/-- Without a sign, and whether it was a minus. -/
def unsigned : List Char → Bool × List Char
  | '+' :: text => (false, text)
  | '-' :: text => (true, text)
  | text => (false, text)

/-- The first whole number that needs more than 64 bits with a sign. -/
def integerLimit : Nat := 0x8000000000000000

/-- Whether a text is a whole number that fits in 64 bits with a sign. -/
def isInteger (text : List Char) : Bool :=
  let limited (base : Nat) (digits : Option (List Char)) (limit : Nat) : Bool :=
    match digits with
    | none => false
    | some digits =>
      match digits.mapM Json.hexDigit? with
      | none => false
      | some values => values.foldl (fun n d => base * n + d) 0 < limit
  match text with
  | '0' :: 'x' :: text =>
    limited 16 (grouped? (fun c => (Json.hexDigit? c).isSome) text) integerLimit
  | '0' :: 'o' :: text => limited 8 (grouped? (fun c => '0' ≤ c && c ≤ '7') text) integerLimit
  | '0' :: 'b' :: text => limited 2 (grouped? (fun c => c == '0' || c == '1') text) integerLimit
  | text =>
    let (negative, text) := unsigned text
    limited 10 (units? text) (if negative then integerLimit + 1 else integerLimit)

/-- Whether a text is a number with a fraction or an exponent, and not too large for a double. -/
def isFloat (text : List Char) : Bool :=
  let (_, text) := unsigned text
  if text = ['i', 'n', 'f'] ∨ text = ['n', 'a', 'n'] then true
  else
    let isMark (c : Char) : Bool := c == 'e' || c == 'E'
    let mantissa := text.takeWhile (!isMark ·)
    let units := mantissa.takeWhile (· != '.')
    let parts : Option (List Char) :=
      match mantissa.dropWhile (· != '.') with
      | [] => some []
      | _ :: text => grouped? Json.isDigit text
    let scale : Option Int :=
      match text.dropWhile (!isMark ·) with
      | [] => some 0
      | _ :: text =>
        let (negative, text) := unsigned text
        (grouped? Json.isDigit text).map fun digits =>
          let n := Int.ofNat (Nat.ofDigitChars 10 digits 0)
          if negative then -n else n
    match units? units, parts, scale with
    | some units, some parts, some scale =>
      units.length < text.length
        && !Json.exceedsDouble (Nat.ofDigitChars 10 (units ++ parts) 0) (scale - parts.length)
    | _, _, _ => false

/-- A number of exactly so many digits. -/
def fixed? (n : Nat) (text : List Char) : Option (Nat × List Char) :=
  let digits := text.take n
  if digits.length = n ∧ digits.all Json.isDigit then
    some (Nat.ofDigitChars 10 digits 0, text.drop n)
  else none

/-- The days of a month. -/
def daysIn (year month : Nat) : Nat :=
  if month = 2 then
    if year % 4 = 0 ∧ (year % 100 ≠ 0 ∨ year % 400 = 0) then 29 else 28
  else if month = 4 ∨ month = 6 ∨ month = 9 ∨ month = 11 then 30
  else 31

/-- What is left behind one of some characters. -/
def oneOf? (marks : List Char) : List Char → Option (List Char)
  | c :: text => if marks.contains c then some text else none
  | [] => none

/-- What is left behind a date. -/
def date? (text : List Char) : Option (List Char) := do
  let (year, text) ← fixed? 4 text
  let (month, text) ← fixed? 2 (← oneOf? ['-'] text)
  let (day, text) ← fixed? 2 (← oneOf? ['-'] text)
  if 1 ≤ month ∧ month ≤ 12 ∧ 1 ≤ day ∧ day ≤ daysIn year month then some text else none

/-- What is left behind a time of day. -/
def time? (text : List Char) : Option (List Char) := do
  let (hour, text) ← fixed? 2 text
  let (minute, text) ← fixed? 2 (← oneOf? [':'] text)
  let (second, text) ← fixed? 2 (← oneOf? [':'] text)
  guard (hour ≤ 23 ∧ minute ≤ 59 ∧ second ≤ 60)
  match text with
  | '.' :: c :: text => if Json.isDigit c then some (text.dropWhile Json.isDigit) else none
  | text => some text

/-- What is left behind an offset from universal time, if there is one. -/
def offset? (text : List Char) : Option (List Char) :=
  match text with
  | c :: rest =>
    if c = 'Z' ∨ c = 'z' then some rest
    else if c = '+' ∨ c = '-' then do
      let (hour, rest) ← fixed? 2 rest
      let (minute, rest) ← fixed? 2 (← oneOf? [':'] rest)
      if hour ≤ 23 ∧ minute ≤ 59 then some rest else none
    else some text
  | [] => some []

/-- What is left behind a date, a time, or both. -/
def moment? (text : List Char) : Option (List Char) :=
  match date? text with
  | some rest =>
    match oneOf? ['T', 't', ' '] rest with
    | none => some rest
    | some behind =>
      match time? behind with
      | some rest => offset? rest
      | none => if rest.head? = some ' ' then some rest else none
  | none => time? text

end ManifestBump.Notation.Toml

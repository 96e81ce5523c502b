import ManifestBump.Document
import ManifestBump.Notation.Json.Lexeme
import ManifestBump.Notation.Yaml.Place

/-! Scalars of YAML: texts, written plainly, in quotes or as blocks of lines, and what a plain text
means. -/
namespace ManifestBump.Notation.Yaml

/-- Takes something from a place on, and gives the place behind it. -/
abbrev Reader (α : Type) := Place → Option (α × Place)

/-! ### Plain scalars -/

/-- A bracket or comma. -/
def isBracket (c : Char) : Bool := [',', '[', ']', '\x7b', '\x7d'].contains c

/-- A character that cannot begin a plain scalar. -/
def isIndicator (c : Char) : Bool :=
  isBracket c || ['-', '?', ':', '#', '&', '*', '!', '|', '>', '\'', '"', '%', '@', '\x60'].contains c

/-- Whether a plain scalar begins with a text. -/
def beginsPlain (inBrackets : Bool) : List Char → Bool
  | [] => false
  | c :: rest =>
    if isBlank c || isBreak c then false
    else if !isIndicator c then true
    else if c = '-' then !(rest.head?.any isBlank)
    else if c = '?' ∨ c = ':' then !inBrackets && !endsWord rest
    else false

/-- The characters of a plain scalar up to the next space or indicator that ends it. Within
brackets, a colon must not touch a bracket. -/
def plainWord (inBrackets : Bool) : List Char → Option (List Char)
  | [] => some []
  | c :: rest =>
    if isBlank c || isBreak c then some []
    else if c = ':' ∧ endsWord rest then some []
    else if inBrackets && isBracket c then some []
    else if inBrackets && c == ':' && rest.head?.any fun d => isBracket d || d == '?' then none
    else (plainWord inBrackets rest).map (c :: ·)

/-- The plain scalar from a place on, behind `found` and a fold in between. Its lines are indented
by `least` columns at least, unless it stands within brackets. -/
def plainFrom (inBrackets : Bool) (least : Nat) :
    (bound : Nat) → (found between : List Char) → Reader (List Char)
  | 0, _, _, _ => none
  | bound + 1, found, between, p =>
    if (p.atEnd && !p.rest.isEmpty) || p.rest.head? == some '#' then some (found, p)
    else
      match plainWord inBrackets p.rest with
      | none => none
      | some word =>
        let found := if word.isEmpty then found else found ++ between ++ word
        let behind := { p.forward word.length with fresh := p.fresh && word.isEmpty }
        if behind.rest.isEmpty || !endsWord behind.rest then some (found, behind)
        else
          match fold? least behind with
          | none => none
          | some f =>
            if !inBrackets && f.place.column < least then some (found, f.place)
            else plainFrom inBrackets least bound found f.text f.place

/-- A plain scalar. -/
def plain? (inBrackets : Bool) (least : Nat) : Reader (List Char) := fun p =>
  plainFrom inBrackets least (p.rest.length + 1) [] [] { p with fresh := false }

/-! ### Quoted scalars -/

/-- The character of an escape, and how many characters it takes behind the backslash. -/
def escape? : List Char → Option (Char × Nat)
  | [] => none
  | c :: rest =>
    let numbered (n : Nat) : Option (Char × Nat) := do
      let values ← (rest.take n).mapM Json.hexDigit?
      guard (values.length = n)
      let value := values.foldl (fun n d => 16 * n + d) 0
      if h : value.isValidChar then some (Char.ofNatAux value h, n + 1) else none
    match c with
    | '0' => some ('\x00', 1)
    | 'a' => some ('\x07', 1)
    | 'b' => some ('\x08', 1)
    | 't' => some ('\t', 1)
    | '\t' => some ('\t', 1)
    | 'n' => some ('\n', 1)
    | 'v' => some ('\x0b', 1)
    | 'f' => some ('\x0c', 1)
    | 'r' => some ('\r', 1)
    | 'e' => some ('\x1b', 1)
    | ' ' => some (' ', 1)
    | '"' => some ('"', 1)
    | '/' => some ('/', 1)
    | '\\' => some ('\\', 1)
    | 'N' => some ('\x85', 1)
    | '_' => some ('\xa0', 1)
    | 'L' => some ('\u2028', 1)
    | 'P' => some ('\u2029', 1)
    | 'x' => numbered 2
    | 'u' => numbered 4
    | 'U' => numbered 8
    | _ => none

/-- What stands in the value for a line end with a backslash before it, and the place behind. -/
def escapedBreak? : Reader (List Char) := fun p =>
  (fold? 0 p).map fun f => (f.breaks.drop 1, f.place)

/-- The rest of a scalar in quotes, of which `found` is known. -/
def quotedFrom (quote : Char) : (bound : Nat) → (found : List Char) → Reader (List Char)
  | 0, _, _ => none
  | bound + 1, found, p =>
    if p.atEnd then none
    else
      match p.rest with
      | [] => none
      | c :: rest =>
        if c = quote then
          if quote = '\'' ∧ rest.head? = some '\'' then
            quotedFrom quote bound (found ++ ['\'']) (p.forward 2)
          else some (found, p.forward 1)
        else if c = '\\' ∧ quote = '"' then
          if rest.head?.any isBreak then
            match escapedBreak? (p.forward 1) with
            | some (more, p) => quotedFrom quote bound (found ++ more) p
            | none => none
          else
            match escape? rest with
            | some (d, used) => quotedFrom quote bound (found ++ [d]) (p.forward (used + 1))
            | none => none
        else if isBlank c || isBreak c then
          match fold? 0 p with
          | some f => quotedFrom quote bound (found ++ f.text) f.place
          | none => none
        else quotedFrom quote bound (found ++ [c]) (p.forward 1)

/-- A scalar in quotes. -/
def quoted? (quote : Char) : Reader (List Char) := fun p =>
  (quotedFrom quote (p.rest.length + 1) [] (p.forward 1)).map fun (text, p) =>
    (text, { p with fresh := false })

/-! ### Block scalars -/

/-- What becomes of the line ends at the end of a block. -/
inductive Chomp where
  | strip
  | clip
  | keep
deriving DecidableEq, Repr

/-- What the first line of a block says. -/
structure BlockHeader where
  folded : Bool
  chomp : Chomp
  /-- By how many columns the lines are indented further, when that is said. -/
  indent : Option Nat

/-- The marks behind the one that begins a block, in either order. -/
def blockMarks? (folded : Bool) (text : List Char) : Option (BlockHeader × List Char) :=
  let chomp (text : List Char) : Option Chomp × List Char :=
    match text with
    | '+' :: text => (some .keep, text)
    | '-' :: text => (some .strip, text)
    | text => (none, text)
  let indent (text : List Char) : Option (Option Nat × List Char) :=
    match text with
    | c :: text =>
      if c = '0' then none
      else if Json.isDigit c then some (some (c.toNat - '0'.toNat), text)
      else some (none, c :: text)
    | [] => some (none, [])
  match chomp text with
  | (some kind, text) => (indent text).map fun (n, text) => (⟨folded, kind, n⟩, text)
  | (none, text) =>
    (indent text).map fun (n, text) =>
      match n with
      | none => (⟨folded, .clip, none⟩, text)
      | some _ =>
        let (kind, text) := chomp text
        (⟨folded, kind.getD .clip, n⟩, text)

/-- What is left behind the first line of a block. -/
def blockHeader? (folded : Bool) (text : List Char) : Option (BlockHeader × List Char) := do
  let (header, text) ← blockMarks? folded text
  let text := text.dropWhile isBlank
  let text := if text.head? = some '#' then text.dropWhile (!isBreak ·) else text
  match text with
  | [] => some (header, [])
  | '\r' :: '\n' :: text => some (header, text)
  | c :: text => if isBreak c then some (header, text) else none

/-- Empty lines of a block and the indentation of the line behind them: the line ends, the widest
line of spaces so far, and the place. No more than `indent` columns are taken as indentation, and no tab stands
among them. -/
def blockBreaksFrom (indent : Option Nat) (breaks : List Char) (widest line column : Nat) :
    List Char → Option (List Char × Nat × Place)
  | [] => some (breaks.reverse, max widest column, ⟨line, column, true, []⟩)
  | c :: rest =>
    let inside := indent.all (column < ·)
    if inside && c == ' ' then blockBreaksFrom indent breaks widest line (column + 1) rest
    else if inside && c == '\t' then none
    else if isBreak c then
      if c = '\r' ∧ rest.head? = some '\n' then
        blockBreaksFrom indent breaks (max widest column) line column rest
      else blockBreaksFrom indent (breakText c :: breaks) (max widest column) (line + 1) 0 rest
    else some (breaks.reverse, max widest column, ⟨line, column, true, c :: rest⟩)

/-- The lines of a block from one on: `found` stands before it, `ending` is the end of the line
before, `empty` are empty lines, and `blank` tells whether that line began with space. -/
def blockLinesFrom (header : BlockHeader) (indent : Nat) :
    (bound : Nat) → (found ending empty : List Char) → (blank : Bool) → Reader (List Char)
  | 0, _, _, _, _, _ => none
  | bound + 1, found, ending, empty, blank, p =>
    if p.column = indent ∧ !p.rest.isEmpty then
      let blankNow := p.rest.head?.any isBlank
      let joined :=
        if header.folded && ending == ['\n'] && !blank && !blankNow then
          if empty.isEmpty then [' '] else []
        else ending
      let line := p.rest.takeWhile (!isBreak ·)
      let found := found ++ joined ++ empty ++ line
      let (ending, rest) : List Char × List Char :=
        match p.rest.dropWhile (!isBreak ·) with
        | [] => ([], [])
        | '\r' :: '\n' :: rest => (['\n'], rest)
        | c :: rest => ([breakText c], rest)
      let column := if ending.isEmpty then p.column + line.length else 0
      match blockBreaksFrom (some indent) [] 0 (p.line + 1) column rest with
      | none => none
      | some (empty, _, p) => blockLinesFrom header indent bound found ending empty blankNow p
    else
      let tail :=
        match header.chomp with
        | .strip => []
        | .clip => ending
        | .keep => ending ++ empty
      some (found ++ tail, p.refresh)

/-- A block scalar whose lines are indented by `least` columns at least. -/
def block? (folded : Bool) (least : Nat) : Reader (List Char) := fun p => do
  let (header, rest) ← blockHeader? folded (p.rest.drop 1)
  let said := header.indent.map (least - 1 + ·)
  let (empty, widest, q) ← blockBreaksFrom said [] 0 (p.line + 1) 0 rest
  let indent := said.getD (max (max widest least) 1)
  blockLinesFrom header indent (rest.length + 1) [] [] empty false q

/-! ### What a scalar means -/

/-- A scalar as it is written. -/
structure Scalar where
  text : String
  plain : Bool
  tag : Option String

/-- A sign, and what is left without it. -/
def unsigned : List Char → Option Char × List Char
  | '+' :: text => (some '+', text)
  | '-' :: text => (some '-', text)
  | text => (none, text)

/-- Whether digits of a base make a number of at most `limit`. -/
def fitsBase (base : Nat) (limit : Nat) (digits : List Char) : Bool :=
  match digits.mapM Json.hexDigit? with
  | some (d :: ds) => (d :: ds).all (· < base) && (d :: ds).foldl (fun n d => base * n + d) 0 ≤ limit
  | _ => false

/-- Whether a plain text is a whole number. One with leading zeros is not. -/
def isInteger (text : List Char) : Bool :=
  let (sign, digits) := unsigned text
  let limit := if sign = some '-' then Nat.pow 2 127 else Nat.pow 2 128 - 1
  match digits with
  | '0' :: 'x' :: digits => fitsBase 16 limit digits
  | '0' :: 'o' :: digits => fitsBase 8 limit digits
  | '0' :: 'b' :: digits => fitsBase 2 limit digits
  | '0' :: _ :: _ => false
  | digits => fitsBase 10 limit digits

/-- Whether a text is a decimal number that a double can hold, or one of the names of those that are
no numbers. -/
def isDecimal (text : List Char) : Bool :=
  let (sign, body) := unsigned text
  if [".inf", ".Inf", ".INF"].any (·.toList == body) then true
  else if [".nan", ".NaN", ".NAN"].any (·.toList == body) then sign != some '-'
  else
    let units := body.takeWhile Json.isDigit
    let rest := body.dropWhile Json.isDigit
    let (parts, rest) : List Char × List Char :=
      match rest with
      | '.' :: rest => (rest.takeWhile Json.isDigit, rest.dropWhile Json.isDigit)
      | rest => ([], rest)
    let scale : Option Int :=
      match rest with
      | [] => some 0
      | c :: rest =>
        let (sign, digits) := unsigned rest
        if (c = 'e' ∨ c = 'E') ∧ digits ≠ [] ∧ digits.all Json.isDigit then
          let n := Int.ofNat (Nat.ofDigitChars 10 digits 0)
          some (if sign = some '-' then -n else n)
        else none
    match scale with
    | none => false
    | some scale =>
      !(units ++ parts).isEmpty
        && !Json.exceedsDouble (Nat.ofDigitChars 10 (units ++ parts) 0) (scale - parts.length)

/-- Whether a text is a zero with more digits behind it. -/
def hasLeadingZero (text : List Char) : Bool :=
  let digits := (unsigned text).2
  digits.all Json.isDigit && digits.head? == some '0' && 1 < digits.length

/-- Whether a plain text is a number. -/
def isNumber (text : List Char) : Bool :=
  isInteger text || (!hasLeadingZero text && isDecimal text)

namespace Scalar

/-- The truth value a text says. -/
def truth? (text : String) : Option Bool :=
  if ["true", "True", "TRUE"].contains text then some true
  else if ["false", "False", "FALSE"].contains text then some false
  else none

/-- Whether a text says that there is nothing. -/
def isNothing (text : String) : Bool := ["null", "Null", "NULL", "~"].contains text

/-- What a plain text without a tag means. -/
def plainDocument (text : String) : Document :=
  if text.isEmpty || isNothing text then .null
  else
    match truth? text with
    | some b => .bool b
    | none =>
      if isNumber text.toList then .number else .text text

/-- What all shared tags begin with. -/
def sharedTag : String := "tag:yaml.org,2002:"

/-- What a scalar means. A tag of one's own means nothing here, and a shared one has to fit. -/
def document? (s : Scalar) : Option Document :=
  match s.tag with
  | none => some (if s.plain then plainDocument s.text else .text s.text)
  | some tag =>
    if tag.toList.head? = some '!' then none
    else if tag = sharedTag ++ "bool" then (truth? s.text).map .bool
    else if tag = sharedTag ++ "int" then
      if isInteger s.text.toList then some .number else none
    else if tag = sharedTag ++ "float" then
      if isDecimal s.text.toList then some .number else none
    else if tag = sharedTag ++ "null" then
      if isNothing s.text then some .null else none
    else some (.text s.text)

end Scalar

end ManifestBump.Notation.Yaml

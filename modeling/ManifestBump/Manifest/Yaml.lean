import ManifestBump.KeyPath
import ManifestBump.Manifest.Block
import ManifestBump.Text.Search
import ManifestBump.Text.Span

/-! Finding values in YAML texts made of block mappings.

A key stands at the front of its line, and its value on the same line. A path descends into the
block of lines under a key that has nothing but a comment behind its colon, and comes back to the
next such key when the block does not hold the rest of the path. -/
namespace ManifestBump.Yaml
open Text

/-! ### The end of a line -/

/-- A character that ends no line. -/
def inLine (c : Char) : Bool := c != '\n' && c != '\r'

/-- A carriage return before the end of a line, if there is one; `none` before the line's end. -/
def lineEnd? : List Char → Option (List Char)
  | [] => some []
  | '\n' :: _ => some []
  | ['\r'] => some ['\r']
  | '\r' :: '\n' :: _ => some ['\r']
  | _ => none

/-- Blanks and a comment up to the end of the line. A comment has a blank in front. -/
def trail? (text : List Char) : Option (List Char) :=
  let blanks := text.takeWhile isIndent
  let rest := text.dropWhile isIndent
  match rest with
  | '#' :: _ =>
    if blanks.isEmpty then none
    else (lineEnd? (rest.dropWhile inLine)).map (blanks ++ rest.takeWhile inLine ++ ·)
  | _ => (lineEnd? rest).map (blanks ++ ·)

/-- Whether the line holds nothing, or a blank and then anything. -/
def opensBlock (text : List Char) : Bool :=
  match text with
  | c :: _ => if isIndent c then (lineEnd? (text.dropWhile inLine)).isSome else (lineEnd? text).isSome
  | [] => true

/-! ### Keys -/

/-- A key at the front of a line, up to its colon. -/
structure Reading where
  indent : Nat
  /-- How far the key's last character is behind the line's start. -/
  keyStop : Nat
  /-- Everything up to the colon. -/
  lead : List Char
  rest : List Char

/-- With the quote a text may begin with, and then without it. -/
def optionalQuote : List Char → List (List Char × List Char)
  | [] => [([], [])]
  | c :: text => if c == '"' || c == '\'' then [([c], text), ([], c :: text)] else [([], c :: text)]

/-- The readings of a line with a given indentation. -/
def readingsAt (key line : List Char) (indent : Nat) : List Reading :=
  (optionalQuote (line.drop indent)).flatMap fun (opening, text) =>
    match after? key text with
    | none => []
    | some text => (optionalQuote text).filterMap fun (closing, text) =>
      match text.dropWhile isIndent with
      | ':' :: rest =>
        let front := line.take indent ++ opening ++ key
        some ⟨indent, front.length,
          front ++ closing ++ text.takeWhile isIndent ++ [':'], rest⟩
      | _ => none

/-- The ways to read a key at the front of a line: as much indentation as possible first, and
quotes taken as delimiters before they are taken as part of the key. -/
def readings (key line : List Char) : List Reading :=
  (List.range (Block.indentOf line + 1)).reverse.flatMap (readingsAt key line)

/-! ### Values -/

/-- A value between quotes, with the rest of its line. -/
def quoted? (quote : Char) (text : List Char) : Option Slot :=
  let isInner (c : Char) : Bool := c != quote && inLine c
  match text.dropWhile isInner with
  | [] => none
  | c :: rest =>
    if c = quote then (trail? rest).map fun trail => ⟨[quote], text.takeWhile isInner, quote :: trail⟩
    else none

/-- The shortest stretch of a line without quotes that leaves only blanks and a comment. -/
def bareRest? : List Char → Option Slot
  | [] => some ⟨[], [], []⟩
  | c :: text =>
    match trail? (c :: text) with
    | some trail => some ⟨[], [], trail⟩
    | none =>
      if inLine c && c != '"' && c != '\'' then
        (bareRest? text).map fun slot => { slot with value := c :: slot.value }
      else none

/-- A value: quoted text, or text that begins with a visible character other than a quote or the
mark of a comment. -/
def scalar? : List Char → Option Slot
  | '"' :: text => quoted? '"' text
  | '\'' :: text => quoted? '\'' text
  | c :: text =>
    if isBlank c || c == '#' then none
    else (bareRest? text).map fun slot => { slot with value := c :: slot.value }
  | [] => none

/-- The value behind a key's colon, at least one blank away. -/
def Reading.slot? (r : Reading) : Option Slot := do
  let blanks := r.rest.takeWhile isIndent
  guard (!blanks.isEmpty)
  return (← scalar? (r.rest.dropWhile isIndent)).behind (r.lead ++ blanks)

/-- A key with a value. -/
def leaf? (key line : List Char) : Option (Reading × Slot) :=
  (readings key line).findSome? fun r => r.slot?.map (r, ·)

/-- A key that opens a block. -/
def parent? (key line : List Char) : Option Reading :=
  (readings key line).find? fun r => opensBlock r.rest

/-! ### The search -/

/-- How far the line behind the first `n` characters ends. -/
def pastLine (text : List Char) (n : Nat) : Nat :=
  let rest := text.drop n
  n + (rest.takeWhile (· != '\n')).length + if rest.contains '\n' then 1 else 0

/-- Looks for a path inside a run of whole lines. -/
def findIn (text : List Char) (leaf : List Char) :
    List (List Char) → (scope : Span) → Option Occurrence
  | [], scope => do
    let indent ← Block.indent? (scope.slice text)
    search (fun cursor =>
      if !cursor.atLineStart then .pass 0
      else match leaf? leaf cursor.rest with
        | none => .pass 0
        | some (reading, slot) =>
          if reading.indent = indent then .found (slot.occurrence cursor.offset)
          else .pass (pastLine cursor.rest reading.keyStop - 1)) (text.take scope.stop) scope.start
  | key :: keys, scope => do
    let indent ← Block.indent? (scope.slice text)
    search (fun cursor =>
      if !cursor.atLineStart then .pass 0
      else match parent? key cursor.rest with
        | none => .pass 0
        | some reading =>
          let past := pastLine cursor.rest reading.keyStop
          let inside := do
            guard (reading.indent = indent)
            let block ← Block.child? indent (cursor.rest.drop past)
            let start := cursor.offset + past
            findIn text leaf keys ⟨start, start + block.length⟩
          match inside with
          | some occurrence => .found occurrence
          | none => .pass (past - 1)) (text.take scope.stop) scope.start

/-- The occurrence a path names. -/
def find? (text : List Char) (path : KeyPath) : Option Occurrence :=
  findIn text path.leaf.toList (path.parents.map String.toList) (Span.all text)

end ManifestBump.Yaml

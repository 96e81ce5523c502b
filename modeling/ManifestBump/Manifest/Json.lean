import ManifestBump.KeyPath
import ManifestBump.Manifest.Outline
import ManifestBump.Text.Blank
import ManifestBump.Text.Search

/-! Finding values in JSON texts, with or without comments and trailing commas.

A key is looked for only inside the object its parent opened, and only where a string begins at
the depth the path demands. Of equal keys at one depth, the first that holds the rest of the path
wins. -/
namespace ManifestBump.Json
open Text

/-! ### What is matched -/

/-- Either quote delimits a key or a value. -/
def isQuote (c : Char) : Bool := c == '"' || c == '\''

/-- A character of a value without quotes. -/
def isBare (c : Char) : Bool :=
  !isBlank c && !(['"', '\'', ',', '/', '[', ']', '\x7b', '\x7d'].contains c)

/-- A quoted key, its colon and the space around it, apart from what follows. -/
def afterKey? (key : List Char) : List Char → Option (List Char × List Char)
  | [] => none
  | opening :: text => do
    guard (isQuote opening)
    match ← after? key text with
    | [] => none
    | closing :: text =>
      guard (isQuote closing)
      match text.dropWhile isBlank with
      | ':' :: rest =>
        let lead := opening :: key ++ closing :: text.takeWhile isBlank
          ++ ':' :: rest.takeWhile isBlank
        some (lead, rest.dropWhile isBlank)
      | _ => none

/-- A value between quotes, on one line. -/
def quoted? (quote : Char) (text : List Char) : Option Slot :=
  let isInner (c : Char) : Bool := c != quote && c != '\n'
  match text.dropWhile isInner with
  | [] => none
  | c :: _ => if c = quote then some ⟨[quote], text.takeWhile isInner, [quote]⟩ else none

/-- A string, or a run of bare characters. -/
def scalar? : List Char → Option Slot
  | '"' :: text => quoted? '"' text
  | '\'' :: text => quoted? '\'' text
  | text => if (text.takeWhile isBare).isEmpty then none else some ⟨[], text.takeWhile isBare, []⟩

/-- A key with a scalar. -/
def leaf? (key text : List Char) : Option Slot := do
  let (lead, text) ← afterKey? key text
  return (← scalar? text).behind lead

/-- How far behind a key the object it opens begins. -/
def object? (key text : List Char) : Option Nat := do
  match ← afterKey? key text with
  | (lead, '\x7b' :: _) => some lead.length
  | _ => none

/-! ### The search -/

/-- Whether a key at an offset, `depth` objects deep, is a key and not the inside of a literal. -/
def isKey (outline : Outline) (offset depth : Nat) : Bool :=
  outline.startsLiteral offset && outline.depthAt offset == depth

/-- Looks for a path inside a stretch of the text that lies `depth` objects deep. -/
def findIn (text : List Char) (outline : Outline) (leaf : List Char) :
    List (List Char) → (depth : Nat) → Span → Option Occurrence
  | [], depth, scope =>
    search (fun cursor =>
      match leaf? leaf cursor.rest with
      | none => .pass 0
      | some slot =>
        if isKey outline cursor.offset depth then .found (slot.occurrence cursor.offset)
        else .pass 1) (text.take scope.stop) scope.start
  | key :: keys, depth, scope =>
    search (fun cursor =>
      match object? key cursor.rest with
      | none => .pass 0
      | some lead =>
        let opening := cursor.offset + lead
        if isKey outline cursor.offset depth && !outline.inLiteral opening then
          let closing := (outline.closingBrace? opening).getD text.length
          match findIn text outline leaf keys (depth + 1) ⟨opening + 1, closing⟩ with
          | some occurrence => .found occurrence
          | none => .pass 1
        else .pass 1) (text.take scope.stop) scope.start

/-- The occurrence a path names. -/
def find? (text : List Char) (path : KeyPath) : Option Occurrence :=
  findIn text (Outline.scan text) path.leaf.toList (path.parents.map String.toList) 1
    (Span.all text)

end ManifestBump.Json

import ManifestBump.KeyPath
import ManifestBump.Text.Blank
import ManifestBump.Text.Search
import ManifestBump.Text.Span
import ManifestBump.Text.Word

/-! Finding values in podspecs: assignments of strings on a block variable.

The variable is named by the header `Name.new do |variable|`. A path is a literal left-hand side,
so there is no nesting; the first assignment outside a comment counts. -/
namespace ManifestBump.Podspec
open Text

/-! ### The block variable -/

/-- The variable between the bars of `do |variable|`. -/
def barred? (text : List Char) : Option (List Char) := do
  let text ← after? ['d', 'o'] text
  match text.dropWhile isBlank with
  | '|' :: text =>
    let text := text.dropWhile isBlank
    let name := text.takeWhile isWord
    match name, (text.dropWhile isWord).dropWhile isBlank with
    | c :: _, '|' :: _ => if isNameStart c then some name else none
    | _, _ => none
  | _ => none

/-- The variable of the first `do` on the rest of the line that is a word of its own. -/
def blockVariable? : (last : Char) → List Char → Option (List Char)
  | _, [] => none
  | last, c :: text =>
    match if isWord last then none else barred? (c :: text) with
    | some name => some name
    | none => if c = '\n' then none else blockVariable? c text

/-- The variable of a header that begins a line, blank lines in front allowed. -/
def header? (line : List Char) : Option (List Char) :=
  match line.dropWhile isBlank with
  | [] => none
  | c :: text =>
    if isNameStart c then do
      let text ← after? ['.', 'n', 'e', 'w'] (text.dropWhile fun d => isWord d || d == ':')
      match text with
      | [] => none
      | d :: _ => if isWord d then none else blockVariable? 'w' text
    else none

/-- The variable of the first header in a text. -/
def discover? (text : List Char) : Option String :=
  (search (fun cursor =>
    if !cursor.atLineStart then .pass 0
    else match header? cursor.rest with
      | some name => .found name
      | none => .pass 0) text 0).map String.ofList

/-! ### Assignments -/

/-- What a path is assigned as. A path that already begins with the variable is taken as it is. -/
def leftHandSide (block : String) (path : KeyPath) : String :=
  match path.parents with
  | first :: _ => if first = block then path.text else block ++ "." ++ path.text
  | [] => block ++ "." ++ path.text

/-- A character of a quoted value. -/
def isInner (c : Char) : Bool := c != '"' && c != '\'' && c != '\r' && c != '\n'

/-- Either quote. -/
def isQuote (c : Char) : Bool := c == '"' || c == '\''

/-- An assignment of a quoted value to `target`. -/
def assignment? (target text : List Char) : Option Slot := do
  let rest ← after? target text
  let before := rest.takeWhile isBlank
  match rest.dropWhile isBlank with
  | '=' :: rest =>
    let behind := rest.takeWhile isBlank
    match rest.dropWhile isBlank with
    | opening :: rest =>
      guard (isQuote opening)
      match rest.dropWhile isInner with
      | closing :: _ =>
        guard (isQuote closing)
        some ⟨target ++ before ++ '=' :: behind ++ [opening], rest.takeWhile isInner, [closing]⟩
      | [] => none
    | [] => none
  | _ => none

/-- An assignment at the start of a line, or behind a character that does not belong to its
target; with the offset of the target from here. -/
def candidate? (target : List Char) (cursor : Cursor) : Option (Nat × Slot) :=
  let atStart := if cursor.atLineStart then assignment? target cursor.rest else none
  match atStart, cursor.rest with
  | some slot, _ => some (0, slot)
  | none, c :: rest =>
    if isWord c || c == '.' then none
    else (assignment? target rest).map fun slot => (1, slot.behind [c])
  | none, [] => none

/-- Whether a comment begins in a line, given the quote the line is inside of. A backslash inside
quotes hides the next character. -/
def commentBegins : (quote : Option Char) → List Char → Bool
  | _, [] => false
  | none, c :: rest =>
    if c = '#' then true
    else commentBegins (if isQuote c then some c else none) rest
  | some _, ['\\'] => false
  | some q, '\\' :: _ :: rest => commentBegins (some q) rest
  | some q, c :: rest => commentBegins (if c = q then none else some q) rest

/-- The part of an offset's line before it. -/
def lineBefore (text : List Char) (offset : Nat) : List Char :=
  ((text.take offset).reverse.takeWhile (· != '\n')).reverse

/-- The first assignment to `target` that is not in a comment. -/
def findTarget? (text target : List Char) : Option Occurrence :=
  search (fun cursor =>
    match candidate? target cursor with
    | none => .pass 0
    | some (shift, slot) =>
      if commentBegins none (lineBefore text (cursor.offset + shift)) then .pass 0
      else .found (slot.occurrence cursor.offset)) text 0

/-- The occurrence a path names. -/
def find? (block : String) (text : List Char) (path : KeyPath) : Option Occurrence :=
  findTarget? text (leftHandSide block path).toList

end ManifestBump.Podspec

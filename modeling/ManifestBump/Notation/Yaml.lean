import ManifestBump.Notation.Yaml.Node

/-! Whole YAML texts, of which configuration uses those with a single document. -/
namespace ManifestBump.Notation.Yaml

/-- How deep lists and tables may lie in each other. -/
def maxDepth : Nat := 128

/-! ### Directives -/

/-- What is left behind the rest of a line that holds nothing but a comment. -/
def restOfLine? (text : List Char) : Option (List Char) :=
  let text := text.dropWhile isBlank
  let text := if text.head? = some '#' then text.dropWhile (!isBreak ·) else text
  match text with
  | [] => some []
  | c :: _ => if isBreak c then some text else none

/-- What is left behind a directive: the version of the language, or a tag handle. -/
def directive? (text : List Char) : Option (List Char) :=
  let name := text.takeWhile isNameChar
  let text := (text.dropWhile isNameChar).dropWhile isBlank
  if name = "YAML".toList then
    match text with
    | '1' :: '.' :: minor :: text =>
      if minor = '1' ∨ minor = '2' then restOfLine? text else none
    | _ => none
  else if name = "TAG".toList then
    let handle := text.takeWhile (!endsWord [·])
    let text := (text.dropWhile (!endsWord [·])).dropWhile isBlank
    if handle.head? = some '!' ∧ handle.getLast? = some '!' then
      if endsWord text then none else restOfLine? (text.dropWhile (!endsWord [·]))
    else none
  else none

/-- The place behind the directives of a text, and whether there are any. -/
def skipDirectives? : (bound : Nat) → (seen : Bool) → Place → Option (Bool × Place)
  | 0, _, _ => none
  | bound + 1, seen, p =>
    match p.column, p.rest with
    | 0, '%' :: text =>
      match directive? text with
      | some rest => skipDirectives? bound true (skipGap false ⟨p.line, 1, false, rest⟩)
      | none => none
    | _, _ => some (seen, p)

/-! ### Documents -/

/-- Whether nothing follows behind a document but marks that it is over. -/
def isOver : (bound : Nat) → Place → Bool
  | 0, _ => false
  | bound + 1, p =>
    p.rest.isEmpty || (p.hasMarks '.' && isOver bound (skipGap false (p.forward 3)))

/-- The only node of a text. -/
def root? (text : List Char) : Option Node := do
  let p := skipGap false (Place.start text)
  let (directed, p) ← skipDirectives? (text.length + 1) false p
  let opened := p.hasMarks '-'
  guard (opened || !(directed || p.hasMarks '.'))
  let p := if opened then skipGap false (p.forward 3) else p
  let (node, _, p) ← blockNode (stepsFor p) maxDepth 0 false [] p
  guard (isOver (text.length + 1) (skipGap false p))
  return node

/-- The text without the mark that may lead it. -/
def skipMark : List Char → List Char
  | '\ufeff' :: text => text
  | text => text

/-- The table a whole text says. A text that says nothing is an empty table. -/
def parse? (text : List Char) : Option Document := do
  let text := skipMark text
  guard (text.all isAllowed)
  match ← root? text with
  | .collection _ (.table members) => return .table members
  | .collection .. => none
  | .scalar s => if s.text.isEmpty then return .table [] else none

end ManifestBump.Notation.Yaml

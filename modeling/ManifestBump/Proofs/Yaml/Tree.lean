import ManifestBump.Proofs.Yaml.Scalar
import ManifestBump.Proofs.Text.Lines

/-! Block mappings as trees.

A tree keeps what its text is made of: indentation, blanks, comments, quotes and the ends of lines
(`Document.text`). A path is looked up in the tree entry by entry, coming back from a mapping that does not
hold its rest (`Mapping.lookup`), and the answer is the place of the scalar in the text. -/
namespace ManifestBump.Yaml
open Text

/-! ### Pieces of lines -/

/-- Spaces and tabs. -/
structure Blanks where
  text : List Char
  chars : ∀ c ∈ text, isIndent c = true

/-- What ends a line; the last line of a text may end with nothing. -/
inductive Ending where
  | feed
  | returnFeed
  | nothing

/-- The characters that end a line. -/
def Ending.text : Ending → List Char
  | .feed => ['\n']
  | .returnFeed => ['\r', '\n']
  | .nothing => []

/-- The end of a line: blanks, a comment, and what ends the line. By itself it is a line that is blank or
holds only a comment. -/
structure Remark where
  blanks : Blanks
  comment : Option (List Char)
  chars : ∀ text ∈ comment, ∀ c ∈ text, inLine c = true
  ending : Ending

/-- The end of a line behind something else, from which a comment is set apart. -/
structure Trail extends Remark where
  apart : comment ≠ none → blanks.text ≠ []

/-- A comment with its mark. -/
def Remark.mark (remark : Remark) : List Char :=
  match remark.comment with
  | some text => '#' :: text
  | none => []

/-- The text of the end of a line. -/
def Remark.text (remark : Remark) : List Char := remark.blanks.text ++ (remark.mark ++ remark.ending.text)

/-! ### Keys and scalars -/

/-- A character of a key: letters, digits, underscores, hyphens, and everything else but white space, quotes,
colons and the mark of a comment. -/
def isKeyChar (c : Char) : Bool := !isBlank c && !isQuote c && c != ':' && c != '#'

/-- The kinds of quotes. -/
inductive Quote where
  | double
  | single

/-- A quote. -/
def Quote.char : Quote → Char
  | .double => '"'
  | .single => '\''

/-- A key, perhaps between quotes. -/
structure Key where
  text : List Char
  ne_nil : text ≠ []
  chars : ∀ c ∈ text, isKeyChar c = true
  quote : Option Quote

/-- The quote on either side of a key. -/
def Key.edge (key : Key) : List Char :=
  match key.quote with
  | some quote => [quote.char]
  | none => []

/-- A key at its indentation, up to its colon. -/
def Key.lead (key : Key) (indent : Nat) : List Char :=
  List.replicate indent ' ' ++ key.edge ++ key.text ++ key.edge ++ [':']

/-- A text that stands without quotes: it begins with a visible character other than the mark of a comment, a
mark inside of it has no blank in front, and it does not end with a blank. -/
structure Plain where
  first : Char
  rest : List Char
  visible : isBlank first = false ∧ isQuote first = false ∧ first ≠ '#'
  chars : ∀ c ∈ rest, inLine c = true ∧ isQuote c = false
  unmarked : ∀ front c back, rest = front ++ c :: '#' :: back → isIndent c = false
  ends : ∀ c ∈ rest.getLast?, isIndent c = false

/-- A scalar as it is written. -/
inductive Literal where
  | quoted (quote : Quote) (value : List Char) (chars : ∀ c ∈ value, inLine c = true ∧ isQuote c = false)
  | plain (value : Plain)

/-- The opening quote. -/
def Literal.opening : Literal → List Char
  | .quoted quote _ _ => [quote.char]
  | .plain _ => []

/-- What stands between the quotes, or the text without quotes. -/
def Literal.value : Literal → List Char
  | .quoted _ value _ => value
  | .plain value => value.first :: value.rest

/-- The closing quote. -/
def Literal.closing : Literal → List Char
  | .quoted quote _ _ => [quote.char]
  | .plain _ => []

/-! ### Documents -/

mutual

/-- What stands behind the colon of a key: a scalar on the same line, or a mapping below that is deeper by one
space and `deeper` more. -/
inductive Node where
  | scalar (gap : Blanks) (apart : gap.text ≠ []) (literal : Literal) (trail : Trail)
  | block (trail : Trail) (deeper : Nat) (mapping : Mapping)

/-- A mapping with at least one entry. Before an entry there may be lines that are blank or hold only a
comment. -/
inductive Mapping where
  | one (before : List Remark) (key : Key) (node : Node)
  | more (before : List Remark) (key : Key) (node : Node) (rest : Mapping)

end

/-- What stands on the line of a key behind its colon. -/
def Node.rest : Node → List Char
  | .scalar gap _ literal trail => gap.text ++ (literal.opening ++ literal.value ++ literal.closing ++ trail.text)
  | .block trail _ _ => trail.text

/-- The line of a key. -/
def Node.row (indent : Nat) (key : Key) (node : Node) : List Char := key.lead indent ++ node.rest

/-- The lines of remarks. -/
def remarks (rs : List Remark) : List (List Char) := rs.map Remark.text

mutual

/-- The lines below the line of a key. -/
def Node.rows (indent : Nat) : Node → List (List Char)
  | .scalar .. => []
  | .block _ deeper mapping => mapping.rows (indent + deeper + 1)

/-- The lines of a mapping. -/
def Mapping.rows (indent : Nat) : Mapping → List (List Char)
  | .one before key node => remarks before ++ node.row indent key :: node.rows indent
  | .more before key node rest => remarks before ++ node.row indent key :: (node.rows indent ++ rest.rows indent)

end

/-- The lines of a mapping that may be missing. -/
def rootRows (indent : Nat) : Option Mapping → List (List Char)
  | some mapping => mapping.rows indent
  | none => []

/-- A document: a mapping, unless the text is empty but for remarks. Every line ends with a line feed, only the
last may go without; it is not empty then. -/
structure Document where
  indent : Nat
  root : Option Mapping
  behind : List Remark
  lines : Lines (rootRows indent root ++ remarks behind)

/-- The text of a document. -/
def Document.text (d : Document) : List Char := (rootRows d.indent d.root ++ remarks d.behind).flatten

/-! ### Lookup in trees -/

/-- Where the value of a scalar stands, when the line of its key begins at an offset. -/
def Node.scalar? (key : Key) (indent offset : Nat) : Node → Option Span
  | .scalar gap _ literal _ =>
    let start := offset + (key.lead indent ++ (gap.text ++ literal.opening)).length
    some ⟨start, start + literal.value.length⟩
  | .block .. => none

/-- The mapping below a key, and its indentation. -/
def Node.inner? (indent : Nat) : Node → Option (Nat × Mapping)
  | .scalar .. => none
  | .block _ deeper mapping => some (indent + deeper + 1, mapping)

/-- The answer of the first entry that has one. An entry is asked with the offset of its line. -/
def Mapping.first (answer : Nat → Key → Node → Option Span) (indent : Nat) : (offset : Nat) → Mapping → Option Span
  | offset, .one before key node => answer (offset + (remarks before).flatten.length) key node
  | offset, .more before key node rest =>
    let start := offset + (remarks before).flatten.length
    (answer start key node).or
      (rest.first answer indent (start + (node.row indent key :: node.rows indent).flatten.length))

/-- The place of a scalar: the last key of a path takes the first entry of its name with a scalar, and an
earlier key the first entry of its name with a mapping that holds the rest of the path. -/
def Mapping.lookup (leaf : List Char) :
    List (List Char) → (indent offset : Nat) → Mapping → Option Span
  | [], indent, offset, mapping =>
    mapping.first (fun offset key node => if key.text = leaf then node.scalar? key indent offset else none)
      indent offset
  | name :: names, indent, offset, mapping =>
    mapping.first (fun offset key node =>
      if key.text = name then
        (node.inner? indent).bind fun (inner, mapping) =>
          Mapping.lookup leaf names inner (offset + (node.row indent key).length) mapping
      else none) indent offset

/-- The place of the scalar a path names. -/
def Document.lookup (d : Document) (path : KeyPath) : Option Span :=
  d.root.bind fun root => root.lookup path.leaf.toList (path.parents.map String.toList) d.indent 0

end ManifestBump.Yaml

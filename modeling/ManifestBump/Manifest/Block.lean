import ManifestBump.Text.Basic
import ManifestBump.Text.Blank

/-! Lines, their indentation, and the block of lines that belongs under a key.

Indentation counts spaces and tabs, one each. Blank lines and comments belong to whatever
surrounds them. -/
namespace ManifestBump.Block
open Text

/-- How many spaces and tabs begin a line. -/
def indentOf (line : List Char) : Nat := (line.takeWhile isIndent).length

/-- A line that is neither blank nor a comment. -/
def isContent (line : List Char) : Bool :=
  match line.dropWhile isBlank with
  | [] => false
  | c :: _ => c != '#'

/-- The indentation of the first line with content. -/
def indent? (block : List Char) : Option Nat := ((lines block).find? isContent).map indentOf

/-- The lines of a child block: the first with content is deeper than the parent, and no later
one is shallower than that. -/
def childLines? (parent : Nat) : List (List Char) → Option (List (List Char))
  | [] => none
  | line :: rest =>
    if isContent line then
      if parent < indentOf line then
        some (line :: rest.takeWhile fun next => !isContent next || indentOf line ≤ indentOf next)
      else none
    else (childLines? parent rest).map (line :: ·)

/-- The child block at the front of a text. -/
def child? (parent : Nat) (text : List Char) : Option (List Char) :=
  (childLines? parent (lines text)).map List.flatten

end ManifestBump.Block

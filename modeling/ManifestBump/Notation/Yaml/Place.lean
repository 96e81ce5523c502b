/-! Places in a YAML text, and what lies between the things written there.

In YAML, columns and line ends carry meaning, so readers keep track of where they are. -/
namespace ManifestBump.Notation.Yaml

/-! ### Characters -/

/-- Space on a line. -/
def isBlank (c : Char) : Bool := c == ' ' || c == '\t'

/-- A character that ends a line. -/
def isBreak (c : Char) : Bool :=
  c == '\n' || c == '\r' || c == '\x85' || c == '\u2028' || c == '\u2029'

/-- Whether a word cannot go on here. -/
def endsWord : List Char → Bool
  | [] => true
  | c :: _ => isBlank c || isBreak c

/-- A character that may stand in a text. -/
def isAllowed (c : Char) : Bool :=
  let n := c.toNat
  n == 9 || n == 10 || n == 13 || (32 ≤ n && n ≤ 126) || n == 0x85
    || (0xA0 ≤ n && n ≤ 0xFFFD && n != 0xFEFF) || 0x10000 ≤ n

/-- What a line end adds to a value: mostly a line feed. -/
def breakText (c : Char) : Char := if c == '\u2028' || c == '\u2029' then c else '\n'

/-! ### Places -/

/-- A place in a text. -/
structure Place where
  line : Nat
  column : Nat
  /-- Whether a key or an entry of a list may begin here. -/
  fresh : Bool
  rest : List Char

namespace Place

/-- The place where a text begins. -/
def start (text : List Char) : Place := ⟨0, 0, true, text⟩

/-- The place some characters further on the same line, where no key may begin. -/
def forward (p : Place) (n : Nat) : Place := ⟨p.line, p.column + n, false, p.rest.drop n⟩

/-- The same place, where a key may begin. -/
def refresh (p : Place) : Place := { p with fresh := true }

/-- Whether the three marks stand here, alone at the beginning of a line. -/
def hasMarks (mark : Char) (p : Place) : Bool :=
  p.column == 0 && p.rest.take 3 == [mark, mark, mark] && endsWord (p.rest.drop 3)

/-- Whether a document is over here. -/
def atEnd (p : Place) : Bool := p.rest.isEmpty || p.hasMarks '-' || p.hasMarks '.'

/-- Whether a word of one character stands here. -/
def atWord (mark : Char) (p : Place) : Bool :=
  match p.rest with
  | c :: rest => c == mark && endsWord rest
  | [] => false

end Place

/-- The next place with something to read, behind space, line ends and comments. Outside of
brackets a new line makes the place fresh, and a fresh place has no tab before it. -/
def skipGapFrom (inBrackets inComment : Bool) (line column : Nat) (fresh : Bool) :
    List Char → Place
  | [] => ⟨line, column, fresh, []⟩
  | c :: rest =>
    if isBreak c then skipGapFrom inBrackets false (line + 1) 0 (fresh || !inBrackets) rest
    else if inComment || c == ' ' || (c == '\t' && (inBrackets || !fresh)) then
      skipGapFrom inBrackets inComment line (column + 1) fresh rest
    else if c == '#' then skipGapFrom inBrackets true line (column + 1) fresh rest
    else ⟨line, column, fresh, c :: rest⟩

/-- The next place with something to read. -/
def skipGap (inBrackets : Bool) (p : Place) : Place :=
  skipGapFrom inBrackets false p.line p.column p.fresh p.rest

/-! ### Folds -/

/-- Space and line ends inside a value: the space before the first line end, and what the line
ends would add. -/
structure Fold where
  blanks : List Char
  breaks : List Char
  place : Place

/-- What stands in the value for a fold: a single line end is a space, and of several the first is
dropped. -/
def Fold.text (f : Fold) : List Char :=
  match f.breaks with
  | [] => f.blanks
  | ['\n'] => [' ']
  | '\n' :: more => more
  | breaks => breaks

/-- The fold from a place on; blanks and breaks are collected from the back. Behind a line end, a
tab must not stand in a column less than `least`. -/
def foldFrom (least : Nat) (blanks breaks : List Char) (line column : Nat) (fresh : Bool) :
    List Char → Option Fold
  | [] => some ⟨blanks.reverse, breaks.reverse, ⟨line, column, fresh, []⟩⟩
  | c :: rest =>
    if isBreak c then
      if c = '\r' ∧ rest.head? = some '\n' then foldFrom least blanks breaks line column fresh rest
      else foldFrom least blanks (breakText c :: breaks) (line + 1) 0 true rest
    else if isBlank c then
      if breaks.isEmpty then foldFrom least (c :: blanks) breaks line (column + 1) fresh rest
      else if c = '\t' ∧ column < least then none
      else foldFrom least blanks breaks line (column + 1) fresh rest
    else some ⟨blanks.reverse, breaks.reverse, ⟨line, column, fresh, c :: rest⟩⟩

/-- The fold from a place on. -/
def fold? (least : Nat) (p : Place) : Option Fold :=
  foldFrom least [] [] p.line p.column p.fresh p.rest

end ManifestBump.Notation.Yaml

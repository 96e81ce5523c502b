/-! JSON for people: one item or member a line, indented by two spaces a level. -/
namespace ManifestBump.Notation.Json

/-- What is written. Members keep their order. -/
inductive Tree where
  | null
  | bool (b : Bool)
  | text (s : String)
  | list (items : List Tree)
  | object (members : List (String × Tree))

/-- A digit of a number below sixteen. -/
def hexChar (n : Nat) : Char := "0123456789abcdef".toList.getD n '0'

/-- A character within quotes. -/
def escaped (c : Char) : List Char :=
  match c with
  | '"' => ['\\', '"']
  | '\\' => ['\\', '\\']
  | '\x08' => ['\\', 'b']
  | '\x0c' => ['\\', 'f']
  | '\n' => ['\\', 'n']
  | '\r' => ['\\', 'r']
  | '\t' => ['\\', 't']
  | c =>
    if c.toNat < 32 then ['\\', 'u', '0', '0', hexChar (c.toNat / 16), hexChar (c.toNat % 16)]
    else [c]

/-- A text in quotes. -/
def quotedText (s : String) : String :=
  String.ofList (['"'] ++ s.toList.flatMap escaped ++ ['"'])

/-- The indentation of a level. -/
def indentation (level : Nat) : String := String.ofList (List.replicate (2 * level) ' ')

/-- Lines between brackets, each on a level deeper. -/
def block (opening closing : String) (level : Nat) (lines : List String) : String :=
  if lines.isEmpty then opening ++ closing
  else
    let inner := indentation (level + 1)
    opening ++ "\n" ++ ",\n".intercalate (lines.map (inner ++ ·)) ++ "\n" ++ indentation level
      ++ closing

namespace Tree

mutual

/-- The text of a value on a level; its first line is not indented. -/
def prettyAt (level : Nat) : Tree → String
  | .null => "null"
  | .bool b => if b then "true" else "false"
  | .text s => quotedText s
  | .list items => block "[" "]" level (prettyItems (level + 1) items)
  | .object members => block "\x7b" "\x7d" level (prettyMembers (level + 1) members)

/-- The texts of some items on a level. -/
def prettyItems (level : Nat) : List Tree → List String
  | [] => []
  | item :: rest => prettyAt level item :: prettyItems level rest

/-- The texts of some members on a level. -/
def prettyMembers (level : Nat) : List (String × Tree) → List String
  | [] => []
  | (key, value) :: rest =>
    (quotedText key ++ ": " ++ prettyAt level value) :: prettyMembers level rest

end

/-- The text of a value. -/
def pretty (tree : Tree) : String := tree.prettyAt 0

/-- A text or nothing. -/
def ofOption : Option String → Tree
  | some s => .text s
  | none => .null

end Tree

end ManifestBump.Notation.Json

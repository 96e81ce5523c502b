import ManifestBump.Notation.Toml.Value

/-! Whole TOML texts: statements one by one, from the first line to the last. -/
namespace ManifestBump.Notation.Toml

/-- What a text has said so far: the header that is open, and the root table. -/
structure State where
  header : List String
  root : Members

/-- The header of a table or of an element of a list, behind its opening brackets. -/
def header? (closing : List Char) (text : List Char) : Option (List String × List Char) := do
  let (keys, text) ← key? text
  let text ← Text.after? closing text
  return (keys, ← endLine? text)

/-- One statement with its line end, which is no empty line. -/
def statement? (s : State) (text : List Char) : Option (State × List Char) :=
  match text with
  | '[' :: '[' :: text => do
    let (keys, text) ← header? [']', ']'] text
    return (⟨keys, ← Members.openElement keys s.root⟩, text)
  | '[' :: text => do
    let (keys, text) ← header? [']'] text
    return (⟨keys, ← Members.openTable keys s.root⟩, text)
  | text => do
    let (keys, text) ← key? text
    let (value, text) ← value? (skipSpace (← Text.after? ['='] text))
    let text ← endLine? text
    let root ← Members.change .passing (Members.assign keys value) s.header .stated s.root
    return (⟨s.header, root⟩, text)

/-- All statements of a text, of which there are at most `bound`. -/
def statementsWithin : (bound : Nat) → State → List Char → Option State
  | 0, s, text => if text.isEmpty then some s else none
  | bound + 1, s, text =>
    match skipSpace text with
    | [] => some s
    | text =>
      match endLine? text with
      | some rest => statementsWithin bound s rest
      | none => do
        let (s, rest) ← statement? s text
        statementsWithin bound s rest

/-- The text without the mark that may lead it. -/
def skipMark : List Char → List Char
  | '\ufeff' :: text => text
  | text => text

/-- The document a whole text says. -/
def parse? (text : List Char) : Option Document :=
  (statementsWithin (text.length + 1) ⟨[], []⟩ (skipMark text)).map fun s =>
    Document.tableOf (membersDocument s.root)

end ManifestBump.Notation.Toml

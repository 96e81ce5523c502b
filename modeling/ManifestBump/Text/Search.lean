/-! Searching a text from the left, one place at a time.

An attempt looks at a place and either finds something or says how many characters, besides
the one it stands on, to pass over. `search` runs attempts until one finds something; it goes
strictly forward, so it ends with the text. -/
namespace ManifestBump.Text

/-- A place in a text: its offset, the character before it, and the text from it on. -/
structure Cursor where
  offset : Nat
  last : Option Char
  rest : List Char

/-- The place at an offset. -/
def Cursor.at (text : List Char) (offset : Nat) : Cursor :=
  ⟨offset, (text.take offset).getLast?, text.drop offset⟩

/-- Whether a line begins here. -/
def Cursor.atLineStart (c : Cursor) : Bool := c.last == none || c.last == some '\n'

/-- What an attempt at one place comes to. -/
inductive Attempt (α : Type) where
  /-- The search ends here. -/
  | found (answer : α)
  /-- The search goes on one character further, and `skip` more. -/
  | pass (skip : Nat)

/-- The answer of the first successful attempt, from a place on. -/
def searchFrom {α : Type} (attempt : Cursor → Attempt α) :
    (skip offset : Nat) → (last : Option Char) → List Char → Option α
  | skip, offset, last, [] =>
    if skip = 0 then
      match attempt ⟨offset, last, []⟩ with
      | .found answer => some answer
      | .pass _ => none
    else none
  | skip + 1, offset, _, c :: rest => searchFrom attempt skip (offset + 1) (some c) rest
  | 0, offset, last, c :: rest =>
    match attempt ⟨offset, last, c :: rest⟩ with
    | .found answer => some answer
    | .pass skip => searchFrom attempt skip (offset + 1) (some c) rest

/-- The answer of the first successful attempt in `text`, from `offset` on. -/
def search {α : Type} (attempt : Cursor → Attempt α) (text : List Char) (offset : Nat) : Option α :=
  let start := Cursor.at text offset
  searchFrom attempt 0 start.offset start.last start.rest

end ManifestBump.Text

import ManifestBump.Notation.Json.Value

/-! Reading records out of JSON while the text is read.

A record is written as an object, or as an array of its fields in their order. The text is read
from the left and the first problem is reported, so a value of the wrong kind counts before
anything that is malformed behind it. Members nobody asks for are passed over. -/
namespace ManifestBump.Notation.Json

/-- Reads something from the front of a text. -/
abbrev Reader (α : Type) := List Char → Except Fault (α × List Char)

/-- The fault of a text whose value is not of the kind that was asked for. A scalar has to be well
formed to be unfit. -/
def mismatch (text : List Char) : Fault :=
  let judged : Except Fault Unit :=
    match text with
    | [] => .error .ended
    | 'n' :: text => (word ['u', 'l', 'l'] text).map fun _ => ()
    | 't' :: text => (word ['r', 'u', 'e'] text).map fun _ => ()
    | 'f' :: text => (word ['a', 'l', 's', 'e'] text).map fun _ => ()
    | '"' :: text => (string text).map fun _ => ()
    | '[' :: _ => .ok ()
    | '\x7b' :: _ => .ok ()
    | c :: text =>
      if c = '-' ∨ isDigit c then (number (c :: text)).map fun _ => () else .error .malformed
  match judged with
  | .ok () => .unfit
  | .error fault => fault

/-! ### Scalars and lists -/

/-- A string. -/
def readString : Reader String := fun text =>
  match skipSpace text with
  | '"' :: text => string text
  | text => .error (mismatch text)

/-- A whole number that fits in a word. -/
def readWhole : Reader UInt64 := fun text =>
  match skipSpace text with
  | [] => .error .ended
  | c :: text =>
    if c = '-' ∨ isDigit c then
      match number (c :: text) with
      | .ok (.whole n, text) => .ok (n, text)
      | .ok (.other, _) => .error .unfit
      | .error fault => .error fault
    else .error (mismatch (c :: text))

/-- The items of a list. -/
def readItems {α : Type} (read : Reader α) : (bound : Nat) → (first : Bool) → Reader (List α)
  | 0, _, _ => .error .malformed
  | bound + 1, first, text =>
    match nextItem? first text with
    | .error fault => .error fault
    | .ok none => (endItems text).map ([], ·)
    | .ok (some text) =>
      match read text with
      | .error fault => .error fault
      | .ok (x, text) => (readItems read bound false text).map fun (xs, rest) => (x :: xs, rest)

/-- A list. -/
def readList {α : Type} (read : Reader α) : Reader (List α) := fun text =>
  match skipSpace text with
  | '[' :: text => readItems read (text.length + 1) true text
  | text => .error (mismatch text)

/-! ### Records -/

/-- A field, by how its value is added to what is known of the record so far. -/
structure Field (σ : Type) where
  name : String
  read : σ → Reader σ

/-- A field whose value is stored. -/
def Field.of {σ α : Type} (name : String) (read : Reader α) (store : α → σ → σ) : Field σ :=
  ⟨name, fun s text => (read text).map fun (x, rest) => (store x s, rest)⟩

/-- The members of an object. No field may come twice. -/
def readMembers {σ : Type} (fields : List (Field σ)) :
    (bound : Nat) → (first : Bool) → (seen : List String) → σ → Reader σ
  | 0, _, _, _ => fun _ => .error .malformed
  | bound + 1, first, seen, s => fun text =>
    match nextMember first text with
    | .error fault => .error fault
    | .ok (.inr text) => .ok (s, text)
    | .ok (.inl text) =>
      match string text with
      | .error fault => .error fault
      | .ok (key, text) =>
        let value : Except Fault (σ × List Char) :=
          match fields.find? (·.name == key) with
          | none => do return (s, ← skipValue (← colon text))
          | some field =>
            if seen.contains key then .error .unfit else do field.read s (← colon text)
        match value with
        | .error fault => .error fault
        | .ok (s, text) => readMembers fields bound false (key :: seen) s text

/-- The fields of an array, in order, as far as there are items. -/
def readPositions {σ : Type} : List (Field σ) → (first : Bool) → σ → Reader σ
  | [], _, s => fun text => .ok (s, text)
  | field :: fields, first, s => fun text =>
    match nextItem? first text with
    | .error fault => .error fault
    | .ok none => .ok (s, text)
    | .ok (some text) =>
      match field.read s text with
      | .error fault => .error fault
      | .ok (s, text) => readPositions fields false s text

/-- A record, from what is known before any field; `finish` fails while a field is missing. -/
def readRecord {σ α : Type} (fields : List (Field σ)) (start : σ) (finish : σ → Option α) :
    Reader α := fun text =>
  match skipSpace text with
  | '\x7b' :: text =>
    match readMembers fields (text.length + 1) true [] start text with
    | .error fault => .error fault
    | .ok (s, text) =>
      match finish s with
      | some x => .ok (x, text)
      | none => .error .unfit
  | '[' :: text =>
    match readPositions fields true start text with
    | .error fault => .error fault
    | .ok (s, text) =>
      match finish s with
      | some x => (endItems text).map (x, ·)
      | none => .error .unfit
  | text => .error (mismatch text)

/-- What a whole text says. -/
def readAll {α : Type} (read : Reader α) (text : List Char) : Except Fault α := do
  let (x, rest) ← read text
  if (skipSpace rest).isEmpty then return x else .error .malformed

end ManifestBump.Notation.Json

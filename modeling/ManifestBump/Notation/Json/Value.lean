import ManifestBump.Document
import ManifestBump.Notation.Json.Lexeme

/-! Whole JSON values: items and members one by one, values passed over, and documents.

Loops over items and members carry a bound that the length of the text supplies, since each of
them takes at least one character. -/
namespace ManifestBump.Notation.Json

/-! ### Items and members -/

/-- The text of the next item, or `none` before the closing bracket. -/
def nextItem? (first : Bool) (text : List Char) : Except Fault (Option (List Char)) :=
  match skipSpace text with
  | [] => .error .ended
  | ']' :: _ => .ok none
  | c :: text =>
    if first then .ok (some (c :: text))
    else if c = ',' then
      match skipSpace text with
      | [] => .error .ended
      | ']' :: _ => .error .malformed
      | text => .ok (some text)
    else .error .malformed

/-- What is left behind the closing bracket, when no more items are wanted. -/
def endItems (text : List Char) : Except Fault (List Char) :=
  match skipSpace text with
  | [] => .error .ended
  | ']' :: text => .ok text
  | _ :: _ => .error .malformed

/-- The text behind the opening quote of the next key, or what is left behind the closing brace. -/
def nextMember (first : Bool) (text : List Char) : Except Fault (List Char ⊕ List Char) :=
  match skipSpace text with
  | [] => .error .ended
  | '\x7d' :: text => .ok (.inr text)
  | c :: text =>
    let key : Except Fault (List Char) :=
      if first then .ok (c :: text)
      else if c = ',' then .ok (skipSpace text)
      else .error .malformed
    match key with
    | .error fault => .error fault
    | .ok [] => .error .ended
    | .ok ('"' :: text) => .ok (.inl text)
    | .ok (_ :: _) => .error .malformed

/-- What is left behind the colon of a member. -/
def colon (text : List Char) : Except Fault (List Char) :=
  match skipSpace text with
  | [] => .error .ended
  | ':' :: text => .ok text
  | _ :: _ => .error .malformed

/-! ### Values nobody asks for -/

mutual

/-- What is left behind a value. -/
def skipValueWithin : (bound : Nat) → List Char → Except Fault (List Char)
  | 0, _ => .error .malformed
  | bound + 1, text =>
    match skipSpace text with
    | [] => .error .ended
    | 'n' :: text => word ['u', 'l', 'l'] text
    | 't' :: text => word ['r', 'u', 'e'] text
    | 'f' :: text => word ['a', 'l', 's', 'e'] text
    | '"' :: text => skipString text
    | '[' :: text => skipItems bound true text
    | '\x7b' :: text => skipMembers bound true text
    | c :: text =>
      if c = '-' ∨ isDigit c then skipNumber (c :: text) else .error .malformed

/-- What is left behind the items of a list. -/
def skipItems : (bound : Nat) → (first : Bool) → List Char → Except Fault (List Char)
  | 0, _, _ => .error .malformed
  | bound + 1, first, text =>
    match skipSpace text with
    | [] => .error .ended
    | ']' :: text => .ok text
    | c :: text =>
      if first then skipItem bound (c :: text)
      else if c = ',' then skipItem bound text
      else .error .malformed

/-- What is left behind an item and all after it. -/
def skipItem : (bound : Nat) → List Char → Except Fault (List Char)
  | 0, _ => .error .malformed
  | bound + 1, text =>
    match skipValueWithin bound text with
    | .ok text => skipItems bound false text
    | .error fault => .error fault

/-- What is left behind the members of a table. -/
def skipMembers : (bound : Nat) → (first : Bool) → List Char → Except Fault (List Char)
  | 0, _, _ => .error .malformed
  | bound + 1, first, text =>
    match nextMember first text with
    | .error fault => .error fault
    | .ok (.inr text) => .ok text
    | .ok (.inl text) =>
      match (do colon (← skipString text) : Except Fault (List Char)) with
      | .error fault => .error fault
      | .ok text =>
        match skipValueWithin bound text with
        | .ok text => skipMembers bound false text
        | .error fault => .error fault

end

/-- What is left behind a value. -/
def skipValue (text : List Char) : Except Fault (List Char) :=
  skipValueWithin (4 * text.length + 4) text

/-! ### Documents -/

/-- How deep lists and tables may lie in each other. -/
def maxDepth : Nat := 127

mutual

/-- A value as a document, with `depth` levels left. -/
def valueWithin : (bound depth : Nat) → List Char → Except Fault (Document × List Char)
  | 0, _, _ => .error .malformed
  | bound + 1, depth, text =>
    match skipSpace text with
    | [] => .error .ended
    | 'n' :: text => (word ['u', 'l', 'l'] text).map (.null, ·)
    | 't' :: text => (word ['r', 'u', 'e'] text).map (.bool true, ·)
    | 'f' :: text => (word ['a', 'l', 's', 'e'] text).map (.bool false, ·)
    | '"' :: text => (string text).map fun (s, rest) => (.text s, rest)
    | '[' :: text =>
      match depth with
      | 0 => .error .malformed
      | depth + 1 => (itemsWithin bound depth true text).map fun (ds, rest) => (.list ds, rest)
    | '\x7b' :: text =>
      match depth with
      | 0 => .error .malformed
      | depth + 1 =>
        (membersWithin bound depth true text).map fun (ms, rest) => (Document.tableOf ms, rest)
    | c :: text =>
      if c = '-' ∨ isDigit c then (number (c :: text)).map fun (_, rest) => (.number, rest)
      else .error .malformed

/-- The items of a list. -/
def itemsWithin : (bound depth : Nat) → (first : Bool) → List Char →
    Except Fault (List Document × List Char)
  | 0, _, _, _ => .error .malformed
  | bound + 1, depth, first, text =>
    match nextItem? first text with
    | .error fault => .error fault
    | .ok none => (endItems text).map ([], ·)
    | .ok (some text) =>
      match valueWithin bound depth text with
      | .error fault => .error fault
      | .ok (d, text) => (itemsWithin bound depth false text).map fun (ds, rest) => (d :: ds, rest)

/-- The members of a table, in the order they are written. -/
def membersWithin : (bound depth : Nat) → (first : Bool) → List Char →
    Except Fault (List (String × Document) × List Char)
  | 0, _, _, _ => .error .malformed
  | bound + 1, depth, first, text =>
    match nextMember first text with
    | .error fault => .error fault
    | .ok (.inr text) => .ok ([], text)
    | .ok (.inl text) =>
      match (do
        let (key, text) ← string text
        return (key, ← colon text) : Except Fault (String × List Char)) with
      | .error fault => .error fault
      | .ok (key, text) =>
        match valueWithin bound depth text with
        | .error fault => .error fault
        | .ok (d, text) =>
          (membersWithin bound depth false text).map fun (ms, rest) => ((key, d) :: ms, rest)

end

/-- The document a whole text says. -/
def parse (text : List Char) : Except Fault Document := do
  let (d, rest) ← valueWithin (2 * text.length + 2) maxDepth text
  if (skipSpace rest).isEmpty then return d else .error .malformed

end ManifestBump.Notation.Json

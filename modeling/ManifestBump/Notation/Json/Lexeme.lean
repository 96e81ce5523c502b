import ManifestBump.Text.Basic

/-! The smallest parts of strict JSON: space, words, strings and numbers.

Every reader takes its part from the front of a text and gives the rest. What goes wrong is told
apart by kind: the text is malformed, it ends too early, or it is well formed and does not fit
what was asked for. -/
namespace ManifestBump.Notation.Json

/-- Why a text cannot be read. -/
inductive Fault where
  | malformed
  | ended
  | unfit
deriving DecidableEq, Repr

/-- The characters between lexemes. -/
def isSpace (c : Char) : Bool := c == ' ' || c == '\n' || c == '\t' || c == '\r'

/-- The text from its next lexeme on. -/
def skipSpace (text : List Char) : List Char := text.dropWhile isSpace

/-- What is left behind a word. -/
def word : (letters text : List Char) → Except Fault (List Char)
  | [], text => .ok text
  | _ :: _, [] => .error .ended
  | a :: letters, c :: text => if a = c then word letters text else .error .malformed

/-! ### Strings -/

/-- The value of a hexadecimal digit. -/
def hexDigit? (c : Char) : Option Nat :=
  if '0' ≤ c ∧ c ≤ '9' then some (c.toNat - '0'.toNat)
  else if 'a' ≤ c ∧ c ≤ 'f' then some (c.toNat - 'a'.toNat + 10)
  else if 'A' ≤ c ∧ c ≤ 'F' then some (c.toNat - 'A'.toNat + 10)
  else none

/-- Four hexadecimal digits. The text is too short if fewer than four bytes are left. -/
def fourDigits (text : List Char) : Except Fault Nat :=
  if Text.byteSize (text.take 4) < 4 then .error .ended
  else match text with
    | a :: b :: c :: d :: _ =>
      match hexDigit? a, hexDigit? b, hexDigit? c, hexDigit? d with
      | some a, some b, some c, some d => .ok (((a * 16 + b) * 16 + c) * 16 + d)
      | _, _, _, _ => .error .malformed
    | _ => .error .malformed

/-- Whether a code unit is the first half of a pair. -/
def isHighHalf (n : Nat) : Bool := 0xD800 ≤ n && n ≤ 0xDBFF

/-- Whether a code unit is the second half of a pair. -/
def isLowHalf (n : Nat) : Bool := 0xDC00 ≤ n && n ≤ 0xDFFF

/-- The character of a numeric escape and how many characters it takes behind the `u`. Halves of
a pair have to come together. -/
def numericEscape (text : List Char) : Except Fault (Char × Nat) := do
  let n ← fourDigits text
  if isLowHalf n then .error .malformed
  else if isHighHalf n then
    match text.drop 4 with
    | [] => .error .ended
    | ['\\'] => .error .ended
    | '\\' :: 'u' :: rest =>
      let low ← fourDigits rest
      if isLowHalf low then .ok (Char.ofNat ((n - 0xD800) * 1024 + (low - 0xDC00) + 0x10000), 10)
      else .error .malformed
    | _ => .error .malformed
  else .ok (Char.ofNat n, 4)

/-- The character of an escape and how many characters it takes behind the backslash. -/
def escape : List Char → Except Fault (Char × Nat)
  | [] => .error .ended
  | '"' :: _ => .ok ('"', 1)
  | '\\' :: _ => .ok ('\\', 1)
  | '/' :: _ => .ok ('/', 1)
  | 'b' :: _ => .ok ('\x08', 1)
  | 'f' :: _ => .ok ('\x0c', 1)
  | 'n' :: _ => .ok ('\n', 1)
  | 'r' :: _ => .ok ('\r', 1)
  | 't' :: _ => .ok ('\t', 1)
  | 'u' :: text => (numericEscape text).map fun (c, used) => (c, used + 1)
  | _ :: _ => .error .malformed

/-- The characters of a string up to its closing quote, after `skip` that are already read. -/
def stringFrom : (skip : Nat) → List Char → Except Fault (List Char × List Char)
  | _, [] => .error .ended
  | skip + 1, _ :: text => stringFrom skip text
  | 0, '"' :: text => .ok ([], text)
  | 0, '\\' :: text =>
    match escape text with
    | .error fault => .error fault
    | .ok (c, used) => (stringFrom used text).map fun (cs, rest) => (c :: cs, rest)
  | 0, c :: text =>
    if c.toNat < 32 then .error .malformed
    else (stringFrom 0 text).map fun (cs, rest) => (c :: cs, rest)

/-- A string, behind its opening quote. -/
def string (text : List Char) : Except Fault (String × List Char) :=
  (stringFrom 0 text).map fun (cs, rest) => (String.ofList cs, rest)

/-- What is left behind a string nobody asks for. Its numeric escapes need not make sense. -/
def skipString : List Char → Except Fault (List Char)
  | [] => .error .ended
  | '"' :: text => .ok text
  | ['\\'] => .error .ended
  | '\\' :: c :: text =>
    if c = 'u' then
      match fourDigits text with
      | .ok _ => skipString text
      | .error fault => .error fault
    else if ['"', '\\', '/', 'b', 'f', 'n', 'r', 't'].contains c then skipString text
    else .error .malformed
  | c :: text => if c.toNat < 32 then .error .malformed else skipString text

/-! ### Numbers -/

/-- A decimal digit. -/
def isDigit (c : Char) : Bool := '0' ≤ c && c ≤ '9'

/-- A number: a whole one that fits in a word, or any other. -/
inductive Number where
  | whole (n : UInt64)
  | other
deriving DecidableEq, Repr

/-- Digits, at least one. -/
def digits (text : List Char) : Except Fault (List Char × List Char) :=
  match text with
  | [] => .error .ended
  | c :: _ =>
    if isDigit c then .ok (text.takeWhile isDigit, text.dropWhile isDigit) else .error .malformed

/-- The digits of a whole number; a zero stands alone. -/
def wholeDigits (text : List Char) : Except Fault (List Char × List Char) := do
  let (found, rest) ← digits text
  if found.head? = some '0' ∧ 1 < found.length then .error .malformed
  else .ok (found, rest)

/-- The digits behind a decimal point, if there is one. -/
def fraction : List Char → Except Fault (Option (List Char) × List Char)
  | '.' :: text => (digits text).map fun (found, rest) => (some found, rest)
  | text => .ok (none, text)

/-- The exponent, if there is one. -/
def exponent : List Char → Except Fault (Option Int × List Char)
  | c :: text =>
    if c = 'e' ∨ c = 'E' then
      let (negative, text) : Bool × List Char :=
        match text with
        | '+' :: text => (false, text)
        | '-' :: text => (true, text)
        | text => (false, text)
      (digits text).map fun (found, rest) =>
        let n := Int.ofNat (Nat.ofDigitChars 10 found 0)
        (some (if negative then -n else n), rest)
    else .ok (none, c :: text)
  | [] => .ok (none, [])

/-- The first magnitude that is no finite double: half a unit above the largest that is. -/
def doubleLimit : Nat := Nat.pow 2 1024 - Nat.pow 2 970

/-- Whether `n · 10^e` is too large for a double. -/
def exceedsDouble (n : Nat) (e : Int) : Bool :=
  n != 0 && match e with
    | .ofNat e => 310 < e || doubleLimit ≤ n * Nat.pow 10 e
    | .negSucc e => e < n.repr.length && doubleLimit * Nat.pow 10 (e + 1) ≤ n

/-- A number. -/
def number (text : List Char) : Except Fault (Number × List Char) := do
  let (negative, text) : Bool × List Char :=
    match text with
    | '-' :: text => (true, text)
    | text => (false, text)
  let (units, text) ← wholeDigits text
  let (parts, text) ← fraction text
  let (scale, text) ← exponent text
  let behind := parts.getD []
  let n := Nat.ofDigitChars 10 (units ++ behind) 0
  if exceedsDouble n (scale.getD 0 - behind.length) then .error .malformed
  else if h : n < UInt64.size ∧ negative = false ∧ parts = none ∧ scale = none then
    .ok (.whole (UInt64.ofNatLT n h.1), text)
  else .ok (.other, text)

/-- What is left behind a number nobody asks for; it may be of any size. An early end makes it
malformed. -/
def skipNumber (text : List Char) : Except Fault (List Char) :=
  let text :=
    match text with
    | '-' :: text => text
    | text => text
  match (do
    let (_, text) ← wholeDigits text
    let (_, text) ← fraction text
    let (_, text) ← exponent text
    return text : Except Fault (List Char)) with
  | .ok text => .ok text
  | .error _ => .error .malformed

end ManifestBump.Notation.Json

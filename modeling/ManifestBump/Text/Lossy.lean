/-! Text made of any bytes: what is no UTF-8 becomes the replacement character.

Bytes are read from the left. Where they begin the form of a character and then break off, the part
that is there is replaced as a whole. -/
namespace ManifestBump.Text

/-- What stands for bytes that are no text. -/
def replacement : Char := '\ufffd'

/-- A byte that goes on with a character. -/
def isContinuation (b : UInt8) : Bool := 0x80 ≤ b && b ≤ 0xBF

/-- Whether `second` may follow a byte that begins a character of three or four bytes. -/
def mayFollow (first second : UInt8) : Bool :=
  if first = 0xE0 then 0xA0 ≤ second && second ≤ 0xBF
  else if first = 0xED then 0x80 ≤ second && second ≤ 0x9F
  else if first = 0xF0 then 0x90 ≤ second && second ≤ 0xBF
  else if first = 0xF4 then 0x80 ≤ second && second ≤ 0x8F
  else isContinuation second

/-- How many bytes belong to the character at the front, if it is whole, or to what is there of it. -/
def charSpan : List UInt8 → Nat × Bool
  | [] => (0, false)
  | a :: rest =>
    if a < 0x80 then (1, true)
    else if 0xC2 ≤ a && a ≤ 0xDF then
      if rest.head?.any isContinuation then (2, true) else (1, false)
    else if 0xE0 ≤ a && a ≤ 0xF4 then
      let width := if a < 0xF0 then 3 else 4
      match rest with
      | b :: more =>
        if mayFollow a b then
          let behind := ((more.take (width - 2)).takeWhile isContinuation).length
          (2 + behind, behind == width - 2)
        else (1, false)
      | [] => (1, false)
    else (1, false)

/-- The character that some bytes are the form of. -/
def charOf (bytes : List UInt8) : Char :=
  match bytes.map UInt8.toNat with
  | [a] => Char.ofNat a
  | [a, b] => Char.ofNat ((a - 0xC0) * 64 + (b - 0x80))
  | [a, b, c] => Char.ofNat (((a - 0xE0) * 64 + (b - 0x80)) * 64 + (c - 0x80))
  | [a, b, c, d] =>
    Char.ofNat ((((a - 0xF0) * 64 + (b - 0x80)) * 64 + (c - 0x80)) * 64 + (d - 0x80))
  | _ => replacement

/-- The text of some bytes, behind `skip` that are already read. -/
def lossyFrom : (skip : Nat) → List UInt8 → List Char
  | _, [] => []
  | skip + 1, _ :: bytes => lossyFrom skip bytes
  | 0, b :: bytes =>
    let (width, whole) := charSpan (b :: bytes)
    (if whole then charOf ((b :: bytes).take width) else replacement)
      :: lossyFrom (width - 1) bytes

/-- The text of any bytes. -/
def lossy (bytes : List UInt8) : String := String.ofList (lossyFrom 0 bytes)

end ManifestBump.Text

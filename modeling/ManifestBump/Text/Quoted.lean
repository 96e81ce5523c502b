import ManifestBump.Text.Printable

/-! A single character between quotes, as error messages show it. -/
namespace ManifestBump.Text

/-- A code point in lower-case hexadecimal. -/
def hexadecimal (n : Nat) : String := String.ofList (Nat.toDigits 16 n)

/-- One character in single quotes: the quote, the backslash and the usual control characters
are escaped by name, everything that does not show by number. -/
def quoted (c : Char) : String :=
  let inner :=
    match c with
    | '\'' => "\\'"
    | '\\' => "\\\\"
    | '\n' => "\\n"
    | '\r' => "\\r"
    | '\t' => "\\t"
    | '\x00' => "\\0"
    | c => if isPrintable c then c.toString else "\\u\x7b" ++ hexadecimal c.toNat ++ "\x7d"
  "'" ++ inner ++ "'"

end ManifestBump.Text

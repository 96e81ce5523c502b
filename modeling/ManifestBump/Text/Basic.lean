/-! Texts as lists of characters, and the few cuts everything else is made of.

Offsets into a text count characters. What is shown to users counts the bytes of UTF-8, so a
cut at an offset never falls inside a character; `byteOffset` is the bridge. -/
namespace ManifestBump.Text

/-! ### Sizes -/

/-- The bytes a text takes in UTF-8. -/
def byteSize : List Char → Nat
  | [] => 0
  | c :: text => c.utf8Size + byteSize text

/-- The byte offset of the character offset `n`. -/
def byteOffset (text : List Char) (n : Nat) : Nat := byteSize (text.take n)

@[simp] theorem byteSize_nil : byteSize [] = 0 := rfl

@[simp] theorem byteSize_cons (c : Char) (text : List Char) :
    byteSize (c :: text) = c.utf8Size + byteSize text := rfl

@[simp] theorem byteSize_append (s t : List Char) : byteSize (s ++ t) = byteSize s + byteSize t := by
  induction s with
  | nil => simp
  | cons c s ih => simp [ih, Nat.add_assoc]

/-! ### Cuts -/

/-- What stands after `lead`, when the text begins with it. -/
def after? : (lead text : List Char) → Option (List Char)
  | [], text => some text
  | _ :: _, [] => none
  | a :: lead, c :: text => if a = c then after? lead text else none

theorem after?_eq_some_iff {lead text rest : List Char} :
    after? lead text = some rest ↔ text = lead ++ rest := by
  induction lead generalizing text with
  | nil => simp [after?]
  | cons a lead ih =>
    cases text with
    | nil => simp [after?]
    | cons c text =>
      by_cases h : a = c
      · simp [after?, h, ih]
      · simp [after?, h, Ne.symm h]

/-- The text cut behind every line feed; the last piece may lack one. -/
def lines : List Char → List (List Char)
  | [] => []
  | c :: text =>
    if c = '\n' then [c] :: lines text
    else match lines text with
      | [] => [[c]]
      | line :: rest => (c :: line) :: rest

theorem flatten_lines (text : List Char) : (lines text).flatten = text := by
  induction text with
  | nil => rfl
  | cons c text ih =>
    by_cases h : c = '\n'
    · simp [lines, h, ih]
    · cases hl : lines text with
      | nil => simp_all [lines]
      | cons line rest => simp_all [lines]

/-- Every occurrence of `needle`, read from the left without overlap, becomes `new`. A needle
is not empty. -/
def replaceAll (needle new : List Char) (text : List Char) : List Char := go 0 text
where
  /-- Passes over `skip` characters that a replacement has already covered. -/
  go : Nat → List Char → List Char
    | _, [] => []
    | skip + 1, _ :: rest => go skip rest
    | 0, c :: rest =>
      if needle.isPrefixOf (c :: rest) then new ++ go (needle.length - 1) rest
      else c :: go 0 rest

end ManifestBump.Text

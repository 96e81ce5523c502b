import ManifestBump.Proofs.Json.Idle

/-! The grammar of strict JSON.

A text is strict if it can be put together from strings, numbers, names and brackets (`Strict`). A member's place in a
strict text is given by what stands in front of its key and behind its value (`Within`); whatever the key and the value
are, the text is strict with them (`Within.fill`). Strict texts close what they open (`Strict.closed`), so the outline
reaches every member outside of literals (`Within.reached`). -/
namespace ManifestBump.Json
open Text

/-! ### Strings and scalars -/

/-- A hexadecimal digit. -/
def isHex (c : Char) : Bool := c.isDigit || ('a' ≤ c && c ≤ 'f') || ('A' ≤ c && c ≤ 'F')

/-- What a string may hold between its quotes. -/
inductive Escaped : List Char → Prop where
  | nil : Escaped []
  /-- Everything but the quote, the backslash and control characters stands for itself. -/
  | plain {c : Char} {rest : List Char} (hc : c ≠ '"' ∧ c ≠ '\\' ∧ 0x20 ≤ c.toNat) (h : Escaped rest) :
      Escaped (c :: rest)
  /-- An escape of one character. -/
  | short {c : Char} {rest : List Char} (hc : c ∈ ['"', '\\', '/', 'b', 'f', 'n', 'r', 't']) (h : Escaped rest) :
      Escaped ('\\' :: c :: rest)
  /-- An escape of a code unit. -/
  | unit {digits rest : List Char} (hlen : digits.length = 4) (hdigits : ∀ c ∈ digits, isHex c = true)
      (h : Escaped rest) : Escaped ('\\' :: 'u' :: (digits ++ rest))

theorem escaped_of_plain {text : List Char} (h : ∀ c ∈ text, c ≠ '"' ∧ c ≠ '\\' ∧ 0x20 ≤ c.toNat) : Escaped text := by
  induction text with
  | nil => exact .nil
  | cons c rest ih => exact .plain (h c List.mem_cons_self) (ih fun d hd => h d (List.mem_cons_of_mem _ hd))

/-- At least one digit. -/
def Digits (text : List Char) : Prop := text ≠ [] ∧ ∀ c ∈ text, c.isDigit = true

/-- A number. A zero in front stands alone. -/
structure Numeral where
  sign : List Char
  units : List Char
  fraction : List Char
  exponent : List Char
  sign_valid : sign = [] ∨ sign = ['-']
  units_valid : Digits units ∧ (units.head? = some '0' → units = ['0'])
  fraction_valid : fraction = [] ∨ ∃ digits, Digits digits ∧ fraction = '.' :: digits
  exponent_valid : exponent = [] ∨ ∃ mark sign digits, (mark = 'e' ∨ mark = 'E') ∧
    (sign = [] ∨ sign = ['+'] ∨ sign = ['-']) ∧ Digits digits ∧ exponent = mark :: (sign ++ digits)

/-- The number as it is written. -/
def Numeral.text (n : Numeral) : List Char := n.sign ++ n.units ++ n.fraction ++ n.exponent

/-- The names of values. -/
def names : List (List Char) := [['t', 'r', 'u', 'e'], ['f', 'a', 'l', 's', 'e'], ['n', 'u', 'l', 'l']]

/-! ### Texts -/

/-- What is in brackets. -/
inductive Bracket where
  | array
  | object

/-- The opening bracket. -/
def Bracket.opening : Bracket → Char
  | .array => '['
  | .object => '\x7b'

/-- The closing bracket. -/
def Bracket.closing : Bracket → Char
  | .array => ']'
  | .object => '\x7d'

/-- What a piece of text is: a value, or at least one item or member with the space around it. -/
inductive Part where
  | value
  | entries (bracket : Bracket)

/-- A key in its quotes, and everything up to its value. -/
def keyText (key : List Char) (gap gap' : Space) : List Char :=
  ('"' :: key ++ ['"']) ++ (gap.text ++ ':' :: gap'.text)

/-- The texts of strict JSON. -/
inductive Strict : Part → List Char → Prop where
  | string {body : List Char} (h : Escaped body) : Strict .value ('"' :: body ++ ['"'])
  | number (n : Numeral) : Strict .value n.text
  | name {text : List Char} (h : text ∈ names) : Strict .value text
  | empty (bracket : Bracket) (space : Space) : Strict .value (bracket.opening :: space.text ++ [bracket.closing])
  | full {bracket : Bracket} {inner : List Char} (h : Strict (.entries bracket) inner) :
      Strict .value (bracket.opening :: inner ++ [bracket.closing])
  | item (before behind : Space) {value : List Char} (h : Strict .value value) :
      Strict (.entries .array) (before.text ++ value ++ behind.text)
  | member (before gap gap' behind : Space) {key value : List Char} (hkey : Escaped key) (h : Strict .value value) :
      Strict (.entries .object) (before.text ++ (keyText key gap gap' ++ value) ++ behind.text)
  | comma {bracket : Bracket} {x y : List Char} (hx : Strict (.entries bracket) x)
      (hy : Strict (.entries bracket) y) : Strict (.entries bracket) (x ++ ',' :: y)

/-- A strict document whose root is an object. -/
def StrictDocument (text : List Char) : Prop :=
  ∃ (before behind : Space) (root : List Char), Strict .value root ∧ root.head? = some '\x7b' ∧
    text = before.text ++ root ++ behind.text

/-! ### Places of members -/

/-- A place for a key and a value in a text: what stands in front of it, and what stands behind it. -/
inductive Within : Part → List Char → List Char → Prop where
  /-- The member itself, between its spaces. -/
  | here (before behind : Space) : Within (.entries .object) before.text behind.text
  | first {bracket : Bracket} {front back y : List Char} (h : Within (.entries bracket) front back)
      (hy : Strict (.entries bracket) y) : Within (.entries bracket) front (back ++ ',' :: y)
  | later {bracket : Bracket} {front back x : List Char} (hx : Strict (.entries bracket) x)
      (h : Within (.entries bracket) front back) : Within (.entries bracket) (x ++ ',' :: front) back
  | full {bracket : Bracket} {front back : List Char} (h : Within (.entries bracket) front back) :
      Within .value (bracket.opening :: front) (back ++ [bracket.closing])
  | item (before behind : Space) {front back : List Char} (h : Within .value front back) :
      Within (.entries .array) (before.text ++ front) (back ++ behind.text)
  | member (before gap gap' behind : Space) {key front back : List Char} (hkey : Escaped key)
      (h : Within .value front back) :
      Within (.entries .object) (before.text ++ (keyText key gap gap' ++ front)) (back ++ behind.text)

/-- A place for a key and a value in a document. -/
def Site (front back : List Char) : Prop :=
  ∃ (before behind : Space) (inFront inBack : List Char), Within (.entries .object) inFront inBack ∧
    front = before.text ++ '\x7b' :: inFront ∧ back = inBack ++ '\x7d' :: behind.text

/-- **Whatever member is put in its place, the text is strict.** -/
theorem Within.fill {part : Part} {front back key value : List Char} (h : Within part front back)
    (gap gap' : Space) (hkey : Escaped key) (hvalue : Strict .value value) :
    Strict part (front ++ (keyText key gap gap' ++ value) ++ back) := by
  induction h with
  | here before behind => exact .member before gap gap' behind hkey hvalue
  | first _ hy ih => simpa using ih.comma hy
  | later hx _ ih => simpa using hx.comma ih
  | full _ ih => simpa using ih.full
  | item before behind _ ih => simpa using ih.item before behind
  | member before gap gap' behind hkey' _ ih => simpa using ih.member before gap gap' behind hkey'

theorem Site.fill {front back key value : List Char} (h : Site front back) (gap gap' : Space) (hkey : Escaped key)
    (hvalue : Strict .value value) : StrictDocument (front ++ (keyText key gap gap' ++ value) ++ back) := by
  obtain ⟨before, behind, inFront, inBack, hwithin, rfl, rfl⟩ := h
  exact ⟨before, behind, _, (hwithin.fill gap gap' hkey hvalue).full, rfl, by simp [Bracket.opening, Bracket.closing]⟩

/-! ### In the outline -/

theorem isHex_iff {c : Char} (h : isHex c = true) : c ≠ '"' ∧ c ≠ '\\' ∧ c ≠ '\n' := by
  refine ⟨?_, ?_, ?_⟩ <;> rintro rfl <;> exact absurd h (by decide)

/-- A string of strict JSON ends nowhere between its quotes. -/
theorem Escaped.body {text : List Char} (h : Escaped text) : Body (endsString '"') text := by
  induction h with
  | nil => exact .nil
  | @plain c rest hc _ ih =>
    have hfeed : c ≠ '\n' := by
      rintro rfl
      exact absurd hc.2.2 (by decide)
    exact .plain (by simp [endsString, hc.1, hfeed]) hc.2.1 ih
  | short hc _ ih => exact .hidden _ ih
  | unit hlen hdigits _ ih =>
    have hbody : Body (endsString '"') _ := Body.of_forall fun c hc => by
      obtain ⟨hquote, hslash, hfeed⟩ := isHex_iff (hdigits c hc)
      exact ⟨by simp [endsString, hquote, hfeed], hslash⟩
    exact .hidden 'u' (hbody.append ih)

theorem Digits.isWordChar {text : List Char} (h : Digits text) : ∀ c ∈ text, isWordChar c = true :=
  fun c hc => by simp [Json.isWordChar, Char.isAlphanum, h.2 c hc]

theorem Numeral.isWordChar (n : Numeral) : ∀ c ∈ n.text, isWordChar c = true := by
  intro c hc
  simp only [Numeral.text, List.mem_append] at hc
  rcases hc with ((hc | hc) | hc) | hc
  · rcases n.sign_valid with h | h <;> rw [h] at hc
    · cases hc
    · rw [List.mem_singleton.mp hc]
      decide
  · exact n.units_valid.1.isWordChar c hc
  · rcases n.fraction_valid with h | ⟨digits, hdigits, h⟩ <;> rw [h] at hc
    · cases hc
    · rcases List.mem_cons.mp hc with rfl | hc
      · decide
      · exact hdigits.isWordChar c hc
  · rcases n.exponent_valid with h | ⟨mark, sign, digits, hmark, hsign, hdigits, h⟩ <;> rw [h] at hc
    · cases hc
    · simp only [List.mem_cons, List.mem_append] at hc
      rcases hc with rfl | hc | hc
      · rcases hmark with rfl | rfl <;> decide
      · rcases hsign with rfl | rfl | rfl
        · cases hc
        · rw [List.mem_singleton.mp hc]
          decide
        · rw [List.mem_singleton.mp hc]
          decide
      · exact hdigits.isWordChar c hc

theorem closed_keyText {key : List Char} (hkey : Escaped key) (gap gap' : Space) :
    Outline.Closed (keyText key gap gap') := by
  have hcolon : Outline.Closed [':'] := closed_char (by decide)
  exact (Outline.closed_string hkey.body).append (gap.closed.append (hcolon.append gap'.closed))

theorem closed_words {text : List Char} (h : ∀ c ∈ text, isWordChar c = true) : Outline.Closed text := by
  refine Outline.closed_quiet fun c hc => ?_
  exact Word.isQuiet ⟨[c], by simp, fun d hd => by rw [List.mem_singleton.mp hd]; exact h c hc⟩ c (by simp)

theorem closed_bracket (bracket : Bracket) {inner : List Char} (h : Outline.Closed inner) :
    Outline.Closed (bracket.opening :: inner ++ [bracket.closing]) := by
  cases bracket with
  | array =>
    have hopening : Outline.Closed ['['] := closed_char (by decide)
    exact hopening.append (h.append (closed_char (by decide)))
  | object => exact h.object

/-- **Strict texts are closed.** -/
theorem Strict.closed {part : Part} {text : List Char} (h : Strict part text) : Outline.Closed text := by
  induction h with
  | string h => exact Outline.closed_string h.body
  | number n => exact closed_words n.isWordChar
  | name h =>
    refine closed_words ?_
    simp only [names, List.mem_cons, List.not_mem_nil, or_false] at h
    rcases h with rfl | rfl | rfl <;> simp [isWordChar, Char.isAlphanum, Char.isAlpha, Char.isUpper, Char.isLower]
  | empty bracket space => exact closed_bracket bracket space.closed
  | @full bracket inner _ ih => exact closed_bracket bracket ih
  | item before behind _ ih => exact (before.closed.append ih).append behind.closed
  | member before gap gap' behind hkey _ ih =>
    exact (before.closed.append ((closed_keyText hkey gap gap').append ih)).append behind.closed
  | @comma bracket x y _ _ ihx ihy =>
    have hcomma : Outline.Closed [','] := closed_char (by decide)
    exact ihx.append (hcomma.append ihy)

theorem StrictDocument.closed {text : List Char} (h : StrictDocument text) : Outline.Closed text := by
  obtain ⟨before, behind, root, hroot, -, rfl⟩ := h
  exact (before.closed.append hroot.closed).append behind.closed

/-- What stands in front of a member is reached outside of literals. -/
theorem Within.reached {part : Part} {front back text : List Char} {depth : Nat} (h : Within part front back)
    (htext : Reached text depth) : ∃ deeper, Reached (text ++ front) deeper := by
  induction h generalizing text depth with
  | here before behind => exact ⟨depth, htext.append before.closed⟩
  | first _ _ ih => exact ih htext
  | @later bracket front back x hx _ ih =>
    have hcomma : Outline.Closed [','] := closed_char (by decide)
    have hnext := htext.append (hx.closed.append hcomma)
    obtain ⟨deeper, hdeeper⟩ := ih hnext
    exact ⟨deeper, by simpa using hdeeper⟩
  | @full bracket front back _ ih =>
    have hopening : ∃ deeper, Reached (text ++ [bracket.opening]) deeper := by
      cases bracket with
      | array => exact ⟨depth, htext.append (closed_char (by decide))⟩
      | object => exact ⟨depth + 1, htext.opening⟩
    obtain ⟨inner, hinner⟩ := hopening
    obtain ⟨deeper, hdeeper⟩ := ih hinner
    exact ⟨deeper, by simpa using hdeeper⟩
  | item before behind _ ih =>
    obtain ⟨deeper, hdeeper⟩ := ih (htext.append before.closed)
    exact ⟨deeper, by simpa using hdeeper⟩
  | member before gap gap' behind hkey _ ih =>
    obtain ⟨deeper, hdeeper⟩ := ih (htext.append (before.closed.append (closed_keyText hkey gap gap')))
    exact ⟨deeper, by simpa using hdeeper⟩

theorem Site.reached {front back : List Char} (h : Site front back) : ∃ depth, Reached front depth := by
  obtain ⟨before, behind, inFront, inBack, hwithin, rfl, -⟩ := h
  have hnil : Reached [] 0 := ⟨_, Outline.reaches_nil⟩
  obtain ⟨depth, hdepth⟩ := hwithin.reached (hnil.append before.closed).opening
  exact ⟨depth, by simpa using hdepth⟩

end ManifestBump.Json

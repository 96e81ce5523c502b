import ManifestBump.Manifest.Json
import ManifestBump.Proofs.Json.Nesting
import ManifestBump.Proofs.Version.Exchange

/-! JSON documents as trees.

A tree keeps what its text is made of: the space between tokens, and strings, numbers and words as they are
written (`Document.render`). A path is looked up in the tree member by member (`Members.lookup`), and the
answer is the place of the scalar in the text. -/
namespace ManifestBump.Json
open Text

/-! ### Tokens -/

/-- The space between two tokens. -/
structure Space where
  text : List Char
  chars : ∀ c ∈ text, c = ' ' ∨ c = '\t' ∨ c = '\n' ∨ c = '\r'

/-- No space. -/
def tight : Space := ⟨[], List.forall_mem_nil _⟩

/-- A character of a string: no quote of either kind, no backslash and no control character. -/
def isTokenChar (c : Char) : Bool := c != '"' && c != '\'' && c != '\\' && 0x20 ≤ c.toNat

/-- What stands between the quotes of a string. -/
structure Token where
  text : List Char
  chars : ∀ c ∈ text, isTokenChar c = true

/-- A character of a number, or of `true`, `false` and `null`. -/
def isWordChar (c : Char) : Bool := c.isAlphanum || c == '-' || c == '.' || c == '+'

/-- A number, or `true`, `false` or `null`. -/
structure Word where
  text : List Char
  ne_nil : text ≠ []
  chars : ∀ c ∈ text, isWordChar c = true

/-! ### Documents -/

mutual

/-- A value. Between an opening bracket and what follows it there may be space. -/
inductive Value where
  | string (token : Token)
  | word (word : Word)
  | array (space : Space) (items : Items)
  | object (space : Space) (members : Members)

/-- The items of an array, each between spaces. -/
inductive Items where
  | nil
  | cons (before : Space) (value : Value) (behind : Space) (rest : Items)

/-- The members of an object, with space around everything in them. -/
inductive Members where
  | nil
  | cons (before : Space) (key : Token) (gap gap' : Space) (value : Value) (behind : Space) (rest : Members)

end

/-- A document whose root is an object. -/
structure Document where
  before : Space
  space : Space
  members : Members
  behind : Space

/-- The comma in front of further items. -/
def Items.comma : Items → List Char
  | .nil => []
  | .cons .. => [',']

/-- The comma in front of further members. -/
def Members.comma : Members → List Char
  | .nil => []
  | .cons .. => [',']

/-- A string in its quotes. -/
def Token.render (token : Token) : List Char := '"' :: token.text ++ ['"']

/-- A key, and everything up to its value. -/
def Token.lead (key : Token) (gap gap' : Space) : List Char := key.render ++ (gap.text ++ ':' :: gap'.text)

mutual

/-- The text of a value. -/
def Value.render : Value → List Char
  | .string token => token.render
  | .word text => text.text
  | .array space items => '[' :: (space.text ++ items.render ++ [']'])
  | .object space members => '\x7b' :: (space.text ++ members.render ++ ['\x7d'])

/-- The text of items. -/
def Items.render : Items → List Char
  | .nil => []
  | .cons before value behind rest =>
    before.text ++ (value.render ++ (behind.text ++ rest.comma ++ rest.render))

/-- The text of members. -/
def Members.render : Members → List Char
  | .nil => []
  | .cons before key gap gap' value behind rest =>
    before.text ++ (key.lead gap gap' ++ (value.render ++ (behind.text ++ rest.comma ++ rest.render)))

end

/-- The text of a document. -/
def Document.render (d : Document) : List Char :=
  d.before.text ++ '\x7b' :: d.space.text ++ d.members.render ++ '\x7d' :: d.behind.text

/-! ### Lookup in trees -/

/-- Where a scalar stands that begins at an offset; of a string, what is between its quotes. -/
def Value.scalar? (offset : Nat) : Value → Option Span
  | .string token => some ⟨offset + 1, offset + 1 + token.text.length⟩
  | .word text => some ⟨offset, offset + text.text.length⟩
  | .array .. => none
  | .object .. => none

/-- What stands between the braces of an object. -/
def Value.inner? : Value → Option (Space × Members)
  | .object space members => some (space, members)
  | _ => none

/-- The answer of the first member that has one. A member is asked with its key, its value and the offset
of its value. -/
def Members.first (answer : Nat → Token → Value → Option Span) : (offset : Nat) → Members → Option Span
  | _, .nil => none
  | offset, .cons before key gap gap' value behind rest =>
    let start := offset + (before.text ++ key.lead gap gap').length
    (answer start key value).or
      (rest.first answer (start + (value.render ++ (behind.text ++ rest.comma)).length))

/-- The place of a scalar: the last key of a path takes the first member of its name with a scalar, and an
earlier key the first member of its name with an object that holds the rest of the path. -/
def Members.lookup (leaf : List Char) : List (List Char) → (offset : Nat) → Members → Option Span
  | [], offset, members =>
    members.first (fun offset key value => if key.text = leaf then value.scalar? offset else none) offset
  | name :: names, offset, members =>
    members.first (fun offset key value =>
      if key.text = name then
        value.inner?.bind fun (space, members) =>
          Members.lookup leaf names (offset + 1 + space.text.length) members
      else none) offset

/-- The place of the scalar a path names. -/
def Document.lookup (d : Document) (path : KeyPath) : Option Span :=
  d.members.lookup path.leaf.toList (path.parents.map String.toList)
    (d.before.text.length + 1 + d.space.text.length)

/-! ### Characters -/

theorem Space.isBlank (space : Space) : ∀ c ∈ space.text, isBlank c = true := by
  intro c hc
  rcases space.chars c hc with rfl | rfl | rfl | rfl <;> decide

theorem Space.isQuiet (space : Space) : ∀ c ∈ space.text, Outline.isQuiet c = true := by
  intro c hc
  rcases space.chars c hc with rfl | rfl | rfl | rfl <;> decide

theorem Token.isInner (token : Token) : ∀ c ∈ token.text, Outline.isInner c = true := by
  intro c hc
  have hchar := token.chars c hc
  simp only [isTokenChar, Bool.and_eq_true, bne_iff_ne, decide_eq_true_eq] at hchar
  have hfeed : c ≠ '\n' := by
    intro heq
    subst heq
    exact absurd hchar.2 (by decide)
  simp [Outline.isInner, hchar, hfeed]

/-- A string of a document ends nowhere between its quotes. -/
theorem Token.body (token : Token) : Body (endsString '"') token.text := by
  refine Body.of_forall fun c hc => ?_
  have hinner := token.isInner c hc
  simp only [Outline.isInner, Bool.and_eq_true, bne_iff_ne] at hinner
  exact ⟨by simp [endsString, hinner], hinner.1.2⟩

theorem Token.isQuote (token : Token) : ∀ c ∈ token.text, isQuote c = false := by
  intro c hc
  have hchar := token.chars c hc
  simp only [isTokenChar, Bool.and_eq_true, bne_iff_ne] at hchar
  simp [Json.isQuote, hchar]

/-- The characters of numbers are those of versions. -/
theorem Word.isVersionChar (word : Word) : ∀ c ∈ word.text, isVersionChar c = true := word.chars

theorem Word.isQuiet (word : Word) : ∀ c ∈ word.text, Outline.isQuiet c = true := by
  intro c hc
  have h := fun d hd => ne_of_isVersionChar (word.isVersionChar c hc) (d := d) hd
  simp [Outline.isQuiet, h '"' (by decide), h '\'' (by decide), h '/' (by decide), h '\x7b' (by decide),
    h '\x7d' (by decide)]

theorem Word.isBare (word : Word) : ∀ c ∈ word.text, isBare c = true := by
  intro c hc
  have h := fun d hd => ne_of_isVersionChar (word.isVersionChar c hc) (d := d) hd
  simp [Json.isBare, isBlank_of_isVersionChar (word.isVersionChar c hc), h '"' (by decide), h '\'' (by decide),
    h ',' (by decide), h '/' (by decide), h '[' (by decide), h ']' (by decide), h '\x7b' (by decide),
    h '\x7d' (by decide)]

/-! ### Closed texts -/

theorem closed_char {c : Char} (h : Outline.isQuiet c = true) : Outline.Closed [c] :=
  Outline.closed_quiet fun d hd => by rwa [List.mem_singleton.mp hd]

theorem closed_nil : Outline.Closed [] := Outline.closed_quiet (List.forall_mem_nil _)

theorem Space.closed (space : Space) : Outline.Closed space.text := Outline.closed_quiet space.isQuiet

theorem Token.closed (token : Token) : Outline.Closed token.render := Outline.closed_string token.body

theorem Token.closed_lead (key : Token) (gap gap' : Space) : Outline.Closed (key.lead gap gap') := by
  have hcolon : Outline.Closed [':'] := closed_char (by decide)
  exact key.closed.append (gap.closed.append (hcolon.append gap'.closed))

theorem Items.closed_comma (items : Items) : Outline.Closed items.comma := by
  cases items with
  | nil => exact closed_nil
  | cons => exact closed_char (by decide)

theorem Members.closed_comma (members : Members) : Outline.Closed members.comma := by
  cases members with
  | nil => exact closed_nil
  | cons => exact closed_char (by decide)

mutual

/-- Every value closes the objects it opens. -/
theorem Value.closed : ∀ value : Value, Outline.Closed value.render
  | .string token => token.closed
  | .word text => Outline.closed_quiet text.isQuiet
  | .array space items => by
    have hopening : Outline.Closed ['['] := closed_char (by decide)
    have hclosing : Outline.Closed [']'] := closed_char (by decide)
    exact hopening.append ((space.closed.append items.closed).append hclosing)
  | .object space members => (space.closed.append members.closed).object

theorem Items.closed : ∀ items : Items, Outline.Closed items.render
  | .nil => closed_nil
  | .cons before value behind rest =>
    before.closed.append (value.closed.append ((behind.closed.append rest.closed_comma).append rest.closed))

theorem Members.closed : ∀ members : Members, Outline.Closed members.render
  | .nil => closed_nil
  | .cons before key gap gap' value behind rest =>
    before.closed.append ((key.closed_lead gap gap').append
      (value.closed.append ((behind.closed.append rest.closed_comma).append rest.closed)))

end

end ManifestBump.Json

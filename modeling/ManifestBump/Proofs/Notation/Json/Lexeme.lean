import ManifestBump.Notation.Json.Lexeme
import ManifestBump.Proofs.Json.Strict
import ManifestBump.Proofs.Text.Numeral

/-! The lexemes of strict JSON, read whatever stands behind them.

A text has many spellings as a string, since its characters may be escaped (`Spells`), and every one of them reads as that
text (`string_of_spells`). A string nobody asks for is passed over, also where its escapes stand for no text
(`skipString_of_escaped`). A number goes as far as the text behind it does not go on with it (`ends`). -/
namespace ManifestBump.Notation.Json
open Text
open ManifestBump.Json (Space Escaped Numeral Digits isHex)

/-! ### Spellings -/

/-- A hexadecimal digit for a number below sixteen, in either case. -/
def HexDigit (n : Nat) (c : Char) : Prop :=
  "0123456789abcdef".toList[n]? = some c ∨ "0123456789ABCDEF".toList[n]? = some c

/-- Four hexadecimal digits that stand for a code unit. -/
inductive CodeUnit : Nat → List Char → Prop where
  | mk {k l m n : Nat} {a b c d : Char} (ha : HexDigit k a) (hb : HexDigit l b) (hc : HexDigit m c)
      (hd : HexDigit n d) : CodeUnit (k * 4096 + l * 256 + m * 16 + n) [a, b, c, d]

/-- Escapes of one character: what they stand for, and how they are written behind the backslash. -/
def shortEscapes : List (Char × Char) :=
  [('"', '"'), ('\\', '\\'), ('/', '/'), ('\x08', 'b'), ('\x0c', 'f'), ('\n', 'n'), ('\r', 'r'), ('\t', 't')]

/-- How a text may be spelled between the quotes of a string. -/
inductive Spells : (text spelled : List Char) → Prop where
  | nil : Spells [] []
  /-- Everything but the quote, the backslash and control characters stands for itself. -/
  | plain {c : Char} {text spelled : List Char} (hc : c ≠ '"' ∧ c ≠ '\\' ∧ 0x20 ≤ c.toNat) (h : Spells text spelled) :
      Spells (c :: text) (c :: spelled)
  | short {c mark : Char} {text spelled : List Char} (hc : (c, mark) ∈ shortEscapes) (h : Spells text spelled) :
      Spells (c :: text) ('\\' :: mark :: spelled)
  /-- A character of the first plane as one code unit. -/
  | unit {c : Char} {digits text spelled : List Char} (hc : c.toNat < 0x10000) (hdigits : CodeUnit c.toNat digits)
      (h : Spells text spelled) : Spells (c :: text) ('\\' :: 'u' :: (digits ++ spelled))
  /-- Any other character as two code units. -/
  | pair {c : Char} {high low text spelled : List Char} (hc : 0x10000 ≤ c.toNat)
      (hhigh : CodeUnit (0xD800 + (c.toNat - 0x10000) / 0x400) high)
      (hlow : CodeUnit (0xDC00 + (c.toNat - 0x10000) % 0x400) low) (h : Spells text spelled) :
      Spells (c :: text) ('\\' :: 'u' :: (high ++ '\\' :: 'u' :: (low ++ spelled)))

variable {text rest spelled digits : List Char}

theorem spells_plain (h : ∀ c ∈ text, c ≠ '"' ∧ c ≠ '\\' ∧ 0x20 ≤ c.toNat) : Spells text text := by
  induction text with
  | nil => exact .nil
  | cons c text ih => exact .plain (h c List.mem_cons_self) (ih fun d hd => h d (List.mem_cons_of_mem c hd))

/-! ### Space and words -/

theorem isSpace_of_mem (space : Space) : ∀ c ∈ space.text, isSpace c = true := by
  intro c hc
  rcases space.chars c hc with rfl | rfl | rfl | rfl <;> rfl

theorem skipSpace_space (space : Space) (h : Stops isSpace text) : skipSpace (space.text ++ text) = text :=
  dropWhile_append (isSpace_of_mem space) h

theorem skipSpace_of_stops (h : Stops isSpace text) : skipSpace text = text := dropWhile_append (List.forall_mem_nil _) h

theorem word_append (letters rest : List Char) : word letters (letters ++ rest) = .ok rest := by
  induction letters with
  | nil => rfl
  | cons a letters ih => rw [List.cons_append, word, if_pos rfl, ih]

/-! ### Code units -/

theorem hexDigit?_of_hexDigit {n : Nat} {c : Char} (h : HexDigit n c) : hexDigit? c = some n := by
  have hn : n < 16 := by
    rcases h with h | h <;> exact (List.getElem?_eq_some_iff.mp h).1
  unfold HexDigit at h
  interval_cases n <;> rcases h with h | h <;> cases h <;> rfl

theorem hexDigit?_of_isHex {c : Char} (h : isHex c = true) : ∃ n, hexDigit? c = some n := by
  unfold hexDigit?
  split
  · exact ⟨_, rfl⟩
  · rename_i hdecimal
    split
    · exact ⟨_, rfl⟩
    · rename_i hlower
      split
      · exact ⟨_, rfl⟩
      · rename_i hupper
        simp_all only [isHex, Char.isDigit, Char.le_def, Bool.or_eq_true, Bool.and_eq_true, decide_eq_true_eq]
        tauto

theorem fourDigits_cons {k l m n : Nat} {a b c d : Char} (ha : hexDigit? a = some k) (hb : hexDigit? b = some l)
    (hc : hexDigit? c = some m) (hd : hexDigit? d = some n) (rest : List Char) :
    fourDigits ([a, b, c, d] ++ rest) = .ok (((k * 16 + l) * 16 + m) * 16 + n) := by
  -- four characters are at least four bytes
  have hsize : ¬byteSize (([a, b, c, d] ++ rest).take 4) < 4 := by
    have ha := a.utf8Size_pos
    have hb := b.utf8Size_pos
    have hc := c.utf8Size_pos
    have hd := d.utf8Size_pos
    simp only [List.cons_append, List.take_succ_cons, List.take_zero, byteSize_cons, byteSize_nil]
    omega
  unfold fourDigits
  rw [if_neg hsize]
  simp only [List.cons_append, List.nil_append, ha, hb, hc, hd]

theorem fourDigits_of_codeUnit {n : Nat} (h : CodeUnit n digits) : fourDigits (digits ++ rest) = .ok n := by
  cases h with
  | @mk k l m n a b c d ha hb hc hd =>
    rw [fourDigits_cons (hexDigit?_of_hexDigit ha) (hexDigit?_of_hexDigit hb) (hexDigit?_of_hexDigit hc)
      (hexDigit?_of_hexDigit hd)]
    congr 1
    omega

theorem fourDigits_of_isHex (hlen : digits.length = 4) (h : ∀ c ∈ digits, isHex c = true) (rest : List Char) :
    ∃ n, fourDigits (digits ++ rest) = .ok n := by
  match digits, hlen with
  | [a, b, c, d], _ =>
    obtain ⟨k, hk⟩ := hexDigit?_of_isHex (h a (by simp))
    obtain ⟨l, hl⟩ := hexDigit?_of_isHex (h b (by simp))
    obtain ⟨m, hm⟩ := hexDigit?_of_isHex (h c (by simp))
    obtain ⟨n, hn⟩ := hexDigit?_of_isHex (h d (by simp))
    exact ⟨_, fourDigits_cons hk hl hm hn rest⟩

/-! ### Strings -/

theorem stringFrom_skip (skip : Nat) (text : List Char) : stringFrom skip text = stringFrom 0 (text.drop skip) := by
  induction skip generalizing text with
  | zero => rfl
  | succ skip ih =>
    cases text with
    | nil => rfl
    | cons c text => rw [stringFrom, ih, List.drop_succ_cons]

theorem stringFrom_plain {c : Char} (hc : c ≠ '"' ∧ c ≠ '\\' ∧ 0x20 ≤ c.toNat) :
    stringFrom 0 (c :: text) = (stringFrom 0 text).map fun (cs, rest) => (c :: cs, rest) := by
  rw [stringFrom.eq_5 _ _ hc.1 hc.2.1, if_neg (by omega)]

theorem stringFrom_escape {c : Char} {used : Nat} (h : escape text = .ok (c, used)) :
    stringFrom 0 ('\\' :: text) = (stringFrom 0 (text.drop used)).map fun (cs, rest) => (c :: cs, rest) := by
  rw [stringFrom]
  simp only [h, stringFrom_skip used]

/-- The code of a character is no half of a pair. -/
theorem not_half (c : Char) : isLowHalf c.toNat = false ∧ isHighHalf c.toNat = false := by
  have hvalid : c.toNat < 0xD800 ∨ 0xDFFF < c.toNat ∧ c.toNat < 0x110000 := c.valid
  simp only [isLowHalf, isHighHalf, Bool.and_eq_false_iff, decide_eq_false_iff_not]
  omega

theorem numericEscape_eq_unit {n : Nat} (hn : fourDigits text = .ok n) (hlow : isLowHalf n = false)
    (hhigh : isHighHalf n = false) : numericEscape text = .ok (Char.ofNat n, 4) := by
  simp [numericEscape, hn, hlow, hhigh, bind, Except.bind]

theorem numericEscape_eq_pair {m n : Nat} (hm : fourDigits text = .ok m) (hlow : isLowHalf m = false)
    (hhigh : isHighHalf m = true) (hdrop : text.drop 4 = '\\' :: 'u' :: rest) (hn : fourDigits rest = .ok n)
    (hsecond : isLowHalf n = true) :
    numericEscape text = .ok (Char.ofNat ((m - 0xD800) * 1024 + (n - 0xDC00) + 0x10000), 10) := by
  simp [numericEscape, hm, hlow, hhigh, hdrop, hn, hsecond, bind, Except.bind]

theorem numericEscape_of_unit {c : Char} (h : CodeUnit c.toNat digits) :
    numericEscape (digits ++ rest) = .ok (c, 4) := by
  rw [numericEscape_eq_unit (fourDigits_of_codeUnit h) (not_half c).1 (not_half c).2, Char.ofNat_toNat]

theorem length_of_codeUnit {n : Nat} (h : CodeUnit n digits) : digits.length = 4 := by
  cases h
  rfl

theorem numericEscape_of_pair {c : Char} {high low : List Char} (hc : 0x10000 ≤ c.toNat)
    (hhigh : CodeUnit (0xD800 + (c.toNat - 0x10000) / 0x400) high)
    (hlow : CodeUnit (0xDC00 + (c.toNat - 0x10000) % 0x400) low) :
    numericEscape (high ++ '\\' :: 'u' :: (low ++ rest)) = .ok (c, 10) := by
  have hvalid : c.toNat < 0xD800 ∨ 0xDFFF < c.toNat ∧ c.toNat < 0x110000 := c.valid
  generalize hm : 0xD800 + (c.toNat - 0x10000) / 0x400 = m at hhigh
  generalize hn : 0xDC00 + (c.toNat - 0x10000) % 0x400 = n at hlow
  have hfirst : isLowHalf m = false ∧ isHighHalf m = true := by
    simp only [isLowHalf, isHighHalf, Bool.and_eq_false_iff, Bool.and_eq_true, decide_eq_false_iff_not,
      decide_eq_true_eq]
    omega
  have hsecond : isLowHalf n = true := by
    simp only [isLowHalf, Bool.and_eq_true, decide_eq_true_eq]
    omega
  have hchar : (m - 0xD800) * 1024 + (n - 0xDC00) + 0x10000 = c.toNat := by omega
  have hdrop : (high ++ '\\' :: 'u' :: (low ++ rest)).drop 4 = '\\' :: 'u' :: (low ++ rest) :=
    List.drop_left' (length_of_codeUnit hhigh)
  rw [numericEscape_eq_pair (fourDigits_of_codeUnit hhigh) hfirst.1 hfirst.2 hdrop (fourDigits_of_codeUnit hlow) hsecond,
    hchar, Char.ofNat_toNat]

/-- **Every spelling of a text reads as that text.** -/
theorem stringFrom_of_spells (h : Spells text spelled) (rest : List Char) :
    stringFrom 0 (spelled ++ '"' :: rest) = .ok (text, rest) := by
  induction h with
  | nil => rfl
  | plain hc _ ih =>
    rw [List.cons_append, stringFrom_plain hc, ih]
    rfl
  | @short c mark text spelled hc _ ih =>
    have hescape : escape (mark :: (spelled ++ '"' :: rest)) = .ok (c, 1) := by
      simp only [shortEscapes, List.mem_cons, Prod.mk.injEq, List.not_mem_nil, or_false] at hc
      rcases hc with h | h | h | h | h | h | h | h <;> rw [h.1, h.2] <;> rfl
    rw [List.cons_append, List.cons_append, stringFrom_escape hescape, List.drop_one, List.tail_cons, ih]
    rfl
  | @unit c digits text spelled _ hdigits _ ih =>
    have hescape : escape ('u' :: (digits ++ (spelled ++ '"' :: rest))) = .ok (c, 5) := by
      rw [escape, numericEscape_of_unit hdigits]
      rfl
    have hdrop : ('u' :: (digits ++ (spelled ++ '"' :: rest))).drop 5 = spelled ++ '"' :: rest := by
      rw [List.drop_succ_cons, List.drop_left' (length_of_codeUnit hdigits)]
    rw [List.cons_append, List.cons_append, List.append_assoc, stringFrom_escape hescape, hdrop, ih]
    rfl
  | @pair c high low text spelled hc hhigh hlow _ ih =>
    have hescape : escape ('u' :: (high ++ '\\' :: 'u' :: (low ++ (spelled ++ '"' :: rest)))) = .ok (c, 11) := by
      rw [escape, numericEscape_of_pair hc hhigh hlow]
      rfl
    have hdrop : ('u' :: (high ++ '\\' :: 'u' :: (low ++ (spelled ++ '"' :: rest)))).drop 11 = spelled ++ '"' :: rest := by
      have hlen : ('u' :: (high ++ '\\' :: 'u' :: low)).length = 11 := by
        simp [length_of_codeUnit hhigh, length_of_codeUnit hlow]
      have hsplit : 'u' :: (high ++ '\\' :: 'u' :: (low ++ (spelled ++ '"' :: rest))) =
          ('u' :: (high ++ '\\' :: 'u' :: low)) ++ (spelled ++ '"' :: rest) := by simp
      rw [hsplit, List.drop_left' hlen]
    simp only [List.cons_append, List.append_assoc]
    rw [stringFrom_escape hescape, hdrop, ih]
    rfl

theorem string_of_spells {s : String} (h : Spells s.toList spelled) (rest : List Char) :
    string (spelled ++ '"' :: rest) = .ok (s, rest) := by
  rw [string, stringFrom_of_spells h]
  simp [Except.map]

/-! ### Strings nobody asks for -/

theorem skipString_plain {c : Char} (hc : c ≠ '"' ∧ c ≠ '\\' ∧ 0x20 ≤ c.toNat) :
    skipString (c :: text) = skipString text := by
  rw [skipString.eq_5 _ _ hc.1 (fun h _ => hc.2.1 h) (fun _ _ h _ => hc.2.1 h), if_neg (by omega)]

theorem skipString_append {front : List Char} (h : ∀ c ∈ front, c ≠ '"' ∧ c ≠ '\\' ∧ 0x20 ≤ c.toNat) :
    skipString (front ++ text) = skipString text := by
  induction front with
  | nil => rfl
  | cons c front ih =>
    rw [List.cons_append, skipString_plain (h c List.mem_cons_self), ih fun d hd => h d (List.mem_cons_of_mem c hd)]

theorem plain_of_isHex {c : Char} (h : isHex c = true) : c ≠ '"' ∧ c ≠ '\\' ∧ 0x20 ≤ c.toNat := by
  obtain ⟨hquote, hslash, -⟩ := Json.isHex_iff h
  refine ⟨hquote, hslash, ?_⟩
  simp only [isHex, Bool.or_eq_true, Bool.and_eq_true, decide_eq_true_eq, isDigit_iff, Char.le_def,
    UInt32.le_iff_toNat_le] at h
  change ((48 ≤ c.toNat ∧ c.toNat ≤ 57) ∨ 97 ≤ c.toNat ∧ c.toNat ≤ 102) ∨ 65 ≤ c.toNat ∧ c.toNat ≤ 70 at h
  omega

theorem skipString_of_escaped (h : Escaped spelled) (rest : List Char) :
    skipString (spelled ++ '"' :: rest) = .ok rest := by
  induction h with
  | nil => rfl
  | plain hc _ ih => rw [List.cons_append, skipString_plain hc, ih]
  | @short c spelled hc _ ih =>
    have hu : c ≠ 'u' := by
      rintro rfl
      exact absurd hc (by decide)
    rw [List.cons_append, List.cons_append, skipString, if_neg hu, if_pos (by simpa using hc), ih]
  | @unit digits spelled hlen hdigits _ ih =>
    obtain ⟨n, hn⟩ := fourDigits_of_isHex hlen hdigits (spelled ++ '"' :: rest)
    simp only [List.cons_append, List.append_assoc]
    rw [skipString, if_pos rfl, hn]
    show skipString (digits ++ (spelled ++ '"' :: rest)) = _
    rw [skipString_append fun c hc => plain_of_isHex (hdigits c hc), ih]

theorem isHex_of_hexDigit {n : Nat} {c : Char} (h : HexDigit n c) : isHex c = true := by
  have hn : n < 16 := by
    rcases h with h | h <;> exact (List.getElem?_eq_some_iff.mp h).1
  unfold HexDigit at h
  interval_cases n <;> rcases h with h | h <;> cases h <;> rfl

theorem isHex_of_codeUnit {n : Nat} (h : CodeUnit n digits) : ∀ c ∈ digits, isHex c = true := by
  cases h with
  | mk ha hb hc hd => simp [isHex_of_hexDigit ha, isHex_of_hexDigit hb, isHex_of_hexDigit hc, isHex_of_hexDigit hd]

/-- A spelling is what a string may hold. -/
theorem escaped_of_spells (h : Spells text spelled) : Escaped spelled := by
  induction h with
  | nil => exact .nil
  | plain hc _ ih => exact .plain hc ih
  | @short c mark text spelled hc _ ih =>
    refine .short ?_ ih
    simp only [shortEscapes, List.mem_cons, Prod.mk.injEq, List.not_mem_nil, or_false] at hc ⊢
    tauto
  | unit _ hdigits _ ih => exact .unit (length_of_codeUnit hdigits) (isHex_of_codeUnit hdigits) ih
  | pair _ hhigh hlow _ ih =>
    exact .unit (length_of_codeUnit hhigh) (isHex_of_codeUnit hhigh)
      (.unit (length_of_codeUnit hlow) (isHex_of_codeUnit hlow) ih)

/-! ### Numbers -/

/-- A character that a number goes on with. -/
def isMore (c : Char) : Bool := isDigit c || c == '.' || c == 'e' || c == 'E'

theorem isDigit_eq (c : Char) : isDigit c = c.isDigit := by
  simp [isDigit, Char.isDigit, Char.le_def]

theorem Stops.digit (h : Stops isMore rest) : Stops isDigit rest := by
  intro c hc
  have hmore := h c hc
  simp only [isMore, Bool.or_eq_false_iff] at hmore
  exact hmore.1.1.1

/-- Digits are read up to whatever is none. -/
theorem digits_append (h : Digits digits) (hrest : Stops isDigit rest) :
    Json.digits (digits ++ rest) = .ok (digits, rest) := by
  have hrun : ∀ c ∈ digits, isDigit c = true := fun c hc => (isDigit_eq c).trans (h.2 c hc)
  cases digits with
  | nil => exact absurd rfl h.1
  | cons c more =>
    rw [List.cons_append, Json.digits, if_pos (hrun c List.mem_cons_self), ← List.cons_append, takeWhile_append hrun hrest,
      dropWhile_append hrun hrest]

theorem wholeDigits_append (h : Digits digits) (hlead : digits.head? = some '0' → digits = ['0'])
    (hrest : Stops isDigit rest) : wholeDigits (digits ++ rest) = .ok (digits, rest) := by
  have hzero : ¬(digits.head? = some '0' ∧ 1 < digits.length) := by
    intro hboth
    rw [hlead hboth.1] at hboth
    exact absurd hboth.2 (by decide)
  rw [wholeDigits, digits_append h hrest]
  show (if digits.head? = some '0' ∧ 1 < digits.length then _ else _) = _
  rw [if_neg hzero]

/-- A text that begins with a character that neither is a digit nor begins a fraction. -/
def EndsFraction (text : List Char) : Prop := ∀ c ∈ text.head?, isDigit c = false ∧ c ≠ '.'

theorem Stops.endsFraction (h : Stops isMore rest) : EndsFraction rest := by
  intro c hc
  have hmore := h c hc
  simp only [isMore, Bool.or_eq_false_iff, beq_eq_false_iff_ne] at hmore
  exact hmore.1.1

/-- Where nothing goes on with a number, it has no fraction. -/
theorem fraction_of_ends (h : EndsFraction rest) : fraction rest = .ok (none, rest) := by
  cases rest with
  | nil => rfl
  | cons c rest => exact fraction.eq_2 _ fun more hmore => (h c rfl).2 (List.cons.inj hmore).1

theorem fraction_append (n : Numeral) (hrest : EndsFraction rest) :
    ∃ parts, fraction (n.fraction ++ rest) = .ok (parts, rest) := by
  rcases n.fraction_valid with h | ⟨digits, hdigits, h⟩
  · rw [h]
    exact ⟨none, fraction_of_ends hrest⟩
  · refine ⟨some digits, ?_⟩
    rw [h, List.cons_append, fraction, digits_append hdigits fun c hc => (hrest c hc).1]
    rfl

/-- Where nothing goes on with a number, it has no exponent. -/
theorem exponent_of_stops (h : Stops isMore rest) : exponent rest = .ok (none, rest) := by
  cases rest with
  | nil => rfl
  | cons c rest =>
    have hmore := h c rfl
    simp only [isMore, Bool.or_eq_false_iff, beq_eq_false_iff_ne] at hmore
    unfold exponent
    exact if_neg (by tauto)

theorem exponent_append (n : Numeral) (hrest : Stops isMore rest) :
    ∃ scale, exponent (n.exponent ++ rest) = .ok (scale, rest) := by
  rcases n.exponent_valid with h | ⟨mark, sign, digits, hmark, hsign, hdigits, h⟩
  · rw [h]
    exact ⟨none, exponent_of_stops hrest⟩
  · have hread := digits_append hdigits (Stops.digit hrest)
    rw [h, List.cons_append, List.append_assoc]
    unfold exponent
    simp only [if_pos hmark]
    rcases hsign with rfl | rfl | rfl
    · -- the digits begin with neither sign
      have hfirst : ∀ c ∈ (digits ++ rest).head?, c ≠ '+' ∧ c ≠ '-' := by
        intro c hc
        rw [List.head?_append_of_ne_nil _ hdigits.1] at hc
        have hdigit := hdigits.2 c (List.mem_of_mem_head? hc)
        refine ⟨?_, ?_⟩ <;> rintro rfl <;> exact absurd hdigit (by decide)
      rw [List.nil_append]
      split
      · rename_i heq
        exact absurd rfl (hfirst '+' (by rw [heq]; rfl)).1
      · rename_i heq
        exact absurd rfl (hfirst '-' (by rw [heq]; rfl)).2
      · rw [hread]
        exact ⟨_, rfl⟩
    · simp only [List.singleton_append, hread]
      exact ⟨_, rfl⟩
    · simp only [List.singleton_append, hread]
      exact ⟨_, rfl⟩

theorem endsFraction_exponent (n : Numeral) (hrest : Stops isMore rest) : EndsFraction (n.exponent ++ rest) := by
  rcases n.exponent_valid with h | ⟨mark, sign, digits, hmark, -, -, h⟩
  · rw [h, List.nil_append]
    exact Stops.endsFraction hrest
  · rw [h, List.cons_append]
    intro c hc
    cases hc
    rcases hmark with rfl | rfl <;> decide

theorem stops_fraction (n : Numeral) (hrest : EndsFraction rest) : Stops isDigit (n.fraction ++ rest) := by
  rcases n.fraction_valid with h | ⟨digits, -, h⟩
  · rw [h, List.nil_append]
    exact fun c hc => (hrest c hc).1
  · rw [h, List.cons_append]
    exact stops_cons_iff.mpr (by decide)

/-- Digits do not begin with a sign. -/
theorem head_ne_minus (h : Digits digits) (text : List Char) : digits ++ rest ≠ '-' :: text := by
  intro heq
  have hhead : (digits ++ rest).head? = some '-' := by rw [heq]; rfl
  rw [List.head?_append_of_ne_nil _ h.1] at hhead
  exact absurd (h.2 '-' (List.mem_of_mem_head? hhead)) (by decide)

/-- A number nobody asks for may be any. -/
theorem skipNumber_append (n : Numeral) (hrest : Stops isMore rest) : skipNumber (n.text ++ rest) = .ok rest := by
  have hends := endsFraction_exponent n hrest
  have hunits := wholeDigits_append n.units_valid.1 n.units_valid.2 (stops_fraction n hends)
  obtain ⟨parts, hparts⟩ := fraction_append n hends
  obtain ⟨scale, hscale⟩ := exponent_append n hrest
  have htext : n.text ++ rest = n.sign ++ (n.units ++ (n.fraction ++ (n.exponent ++ rest))) := by
    simp only [Numeral.text, List.append_assoc]
  rw [htext]
  unfold skipNumber
  rcases n.sign_valid with h | h
  · rw [h, List.nil_append]
    split
    · rename_i text heq
      exact absurd heq (head_ne_minus n.units_valid.1 text)
    · simp only [hunits, hparts, hscale, bind, Except.bind, pure, Except.pure]
  · rw [h]
    simp only [List.singleton_append, hunits, hparts, hscale, bind, Except.bind, pure, Except.pure]

/-! ### Whole numbers -/

/-- No word is too large for a double. -/
theorem exceedsDouble_word {n : Nat} (h : n < UInt64.size) : exceedsDouble n 0 = false := by
  have hlimit : UInt64.size ≤ doubleLimit := by decide +kernel
  have hsmall : ¬doubleLimit ≤ n * Nat.pow 10 0 := by
    rw [show Nat.pow 10 0 = 1 from rfl]
    omega
  show (n != 0 && (decide (310 < 0) || decide (doubleLimit ≤ n * Nat.pow 10 0))) = false
  rw [decide_eq_false hsmall]
  simp

/-- **A word in decimal is read as what it is.** -/
theorem number_toDigits (n : UInt64) (hrest : Stops isMore rest) :
    number (Nat.toDigits 10 n.toNat ++ rest) = .ok (.whole n, rest) := by
  have hnumeral := numeral_toDigits n.toNat
  have hdigits : Digits (Nat.toDigits 10 n.toNat) := ⟨hnumeral.ne_nil, hnumeral.isDigit⟩
  have hunits := wholeDigits_append hdigits hnumeral.lead (Stops.digit hrest)
  have hlt : n.toNat < UInt64.size := n.toNat_lt_size
  have hn : UInt64.ofNatLT n.toNat hlt = n := UInt64.toNat_inj.mp (UInt64.toNat_ofNatLT ..)
  unfold number
  split
  rename_i negative text hsign
  split at hsign
  · rename_i more heq
    exact absurd heq (head_ne_minus hdigits more)
  · cases hsign
    simp only [hunits, fraction_of_ends (Stops.endsFraction hrest), exponent_of_stops hrest, bind, Except.bind, Option.getD_none,
      List.append_nil, hnumeral.value, List.length_nil]
    rw [show ((0 : Int) - ((0 : Nat) : Int)) = 0 from rfl, exceedsDouble_word hlt]
    simp only [hlt, hn, and_self, dif_pos]
    rfl

end ManifestBump.Notation.Json

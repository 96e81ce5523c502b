import ManifestBump.Notation.Json.Value
import ManifestBump.Proofs.Notation.Json.Lexeme

/-! Values nobody asks for are passed over whole.

Whatever a value of strict JSON holds, and however deep it lies in itself, what is left behind it is what stands behind it
(`skipValue_append`). Each loop takes at least one character for every step, so the length of a text is bound enough. -/
namespace ManifestBump.Notation.Json
open Text
open ManifestBump.Json (Space Escaped Numeral Digits Strict Part Bracket keyText names)

variable {text rest : List Char}

/-! ### Space -/

theorem skipSpace_skipSpace (text : List Char) : skipSpace (skipSpace text) = skipSpace text :=
  skipSpace_of_stops (stops_dropWhile text)

/-- Space in front of a text is no part of it. -/
theorem skipSpace_append (space : Space) (text : List Char) : skipSpace (space.text ++ text) = skipSpace text :=
  List.dropWhile_append_of_pos (isSpace_of_mem space)

theorem skipSpace_cons {c : Char} (h : isSpace c = false) (text : List Char) : skipSpace (c :: text) = c :: text :=
  skipSpace_of_stops (stops_cons_iff.mpr h)

theorem stops_append (space : Space) (h : Stops isMore rest) : Stops isMore (space.text ++ rest) := by
  intro c hc
  cases hspace : space.text with
  | nil =>
    rw [hspace] at hc
    exact h c hc
  | cons d more =>
    have hd := space.chars d (by rw [hspace]; exact List.mem_cons_self)
    rw [hspace] at hc
    cases hc
    rcases hd with rfl | rfl | rfl | rfl <;> rfl

/-! ### Beginnings -/

/-- What a number begins with. -/
def numberHeads : List Char := ['-', '0', '1', '2', '3', '4', '5', '6', '7', '8', '9']

theorem mem_numberHeads_of_isDigit {c : Char} (h : c.isDigit = true) : c ∈ numberHeads := by
  obtain ⟨hle, hle'⟩ := isDigit_iff.mp h
  have hcode : c = Char.ofNat c.toNat := (Char.ofNat_toNat c).symm
  generalize c.toNat = n at hle hle' hcode
  interval_cases n <;> rw [hcode] <;> decide

theorem head_numeral (n : Numeral) : ∃ c more, n.text = c :: more ∧ c ∈ numberHeads := by
  rcases n.sign_valid with h | h
  · obtain ⟨c, more, hunits⟩ := List.exists_cons_of_ne_nil n.units_valid.1.1
    have hc := n.units_valid.1.2 c (by rw [hunits]; exact List.mem_cons_self)
    exact ⟨c, more ++ n.fraction ++ n.exponent, by rw [Numeral.text, h, hunits]; rfl, mem_numberHeads_of_isDigit hc⟩
  · exact ⟨'-', n.units ++ n.fraction ++ n.exponent, by rw [Numeral.text, h]; simp, by decide⟩

/-- A value begins neither with space nor with a closing bracket. -/
theorem head_value {part : Part} (h : Strict part text) (hpart : part = .value) :
    ∃ c more, text = c :: more ∧ isSpace c = false ∧ c ≠ ']' := by
  cases h with
  | string => exact ⟨'"', _, rfl, rfl, by decide⟩
  | number n =>
    obtain ⟨c, more, hn, hc⟩ := head_numeral n
    have hheads : ∀ d ∈ numberHeads, isSpace d = false ∧ d ≠ ']' := by simp [numberHeads, isSpace]
    exact ⟨c, more, hn, hheads c hc⟩
  | name h =>
    simp only [names, List.mem_cons, List.not_mem_nil, or_false] at h
    rcases h with rfl | rfl | rfl <;> exact ⟨_, _, rfl, rfl, by decide⟩
  | empty bracket => cases bracket <;> exact ⟨_, _, rfl, rfl, by decide⟩
  | @full bracket => cases bracket <;> exact ⟨_, _, rfl, rfl, by decide⟩
  | item => cases hpart
  | member => cases hpart
  | comma => cases hpart

/-- Neither do the items of a list, but for the space in front of them. -/
theorem head_items {part : Part} (h : Strict part text) (hpart : part = .entries .array) (rest : List Char) :
    ∃ c more, skipSpace (text ++ rest) = c :: more ∧ c ≠ ']' := by
  induction h generalizing rest with
  | string => cases hpart
  | number => cases hpart
  | name => cases hpart
  | empty => cases hpart
  | full => cases hpart
  | item before behind h _ =>
    obtain ⟨c, more, rfl, hspace, hc⟩ := head_value h rfl
    refine ⟨c, more ++ (behind.text ++ rest), ?_, hc⟩
    rw [List.append_assoc, List.append_assoc, skipSpace_append, List.cons_append, skipSpace_cons hspace]
  | member => cases hpart
  | comma _ _ ihx _ =>
    rw [List.append_assoc]
    exact ihx hpart _

/-! ### Steps -/

theorem skipItems_append (space : Space) (bound : Nat) (first : Bool) (text : List Char) :
    skipItems bound first (space.text ++ text) = skipItems bound first text := by
  cases bound with
  | zero => rfl
  | succ bound => rw [skipItems, skipItems, skipSpace_append]

theorem nextMember_append (space : Space) (first : Bool) (text : List Char) :
    nextMember first (space.text ++ text) = nextMember first text := by
  rw [nextMember, nextMember, skipSpace_append]

theorem skipValueWithin_skipSpace (bound : Nat) (text : List Char) :
    skipValueWithin bound (skipSpace text) = skipValueWithin bound text := by
  cases bound with
  | zero => rfl
  | succ bound => rw [skipValueWithin, skipValueWithin, skipSpace_skipSpace]

theorem skipValueWithin_append (space : Space) (bound : Nat) (text : List Char) :
    skipValueWithin bound (space.text ++ text) = skipValueWithin bound text := by
  rw [← skipValueWithin_skipSpace, skipSpace_append, skipValueWithin_skipSpace]

theorem skipItems_first {c : Char} {more : List Char} {bound : Nat} (h : skipSpace text = c :: more) (hc : c ≠ ']') :
    skipItems (bound + 1) true text = skipItem bound (c :: more) := by
  rw [skipItems, h]
  split
  · rename_i heq
    cases heq
  · rename_i heq
    exact absurd (List.cons.inj heq).1 hc
  · rename_i heq
    rw [if_pos rfl, ← heq]

theorem skipItem_skipSpace (bound : Nat) (text : List Char) : skipItem bound (skipSpace text) = skipItem bound text := by
  cases bound with
  | zero => rfl
  | succ bound => rw [skipItem, skipItem, skipValueWithin_skipSpace]

theorem skipMembers_append (space : Space) (bound : Nat) (first : Bool) (text : List Char) :
    skipMembers bound first (space.text ++ text) = skipMembers bound first text := by
  cases bound with
  | zero => rfl
  | succ bound => rw [skipMembers, skipMembers, nextMember_append]

theorem skipValueWithin_number {c : Char} (hc : c ∈ numberHeads) (bound : Nat) (text : List Char) :
    skipValueWithin (bound + 1) (c :: text) = skipNumber (c :: text) := by
  simp only [numberHeads, List.mem_cons, List.not_mem_nil, or_false] at hc
  rcases hc with rfl | rfl | rfl | rfl | rfl | rfl | rfl | rfl | rfl | rfl | rfl <;> rfl

/-- The key of a member is behind its opening quote, also where other members are in front of it. -/
theorem nextMember_key (space : Space) (text : List Char) :
    nextMember true (space.text ++ '"' :: text) = .ok (.inl text) ∧
      nextMember false (',' :: (space.text ++ '"' :: text)) = .ok (.inl text) := by
  have hquote : skipSpace (space.text ++ '"' :: text) = '"' :: text := skipSpace_space space (stops_cons_iff.mpr rfl)
  have hcomma : skipSpace (',' :: (space.text ++ '"' :: text)) = ',' :: (space.text ++ '"' :: text) := rfl
  constructor
  · rw [nextMember, hquote]
    rfl
  · simp [nextMember, hcomma, hquote]

theorem colon_cons (space : Space) (text : List Char) : colon (space.text ++ ':' :: text) = .ok text := by
  rw [colon, skipSpace_space space (stops_cons_iff.mpr rfl)]
  rfl

/-- What passing over a part of a text means. What goes on behind it is passed over with any bound that is not too small,
and each character in front of that raises the bound by four. -/
def Skips : Part → List Char → Prop
  | .value, text => ∀ (space : Space) rest bound, Stops isMore rest → 4 * text.length ≤ bound →
      skipValueWithin bound (space.text ++ (text ++ rest)) = .ok rest
  | .entries .array, text => ∀ more least rest, Stops isMore more →
      (∀ bound, least ≤ bound → skipItems bound false more = .ok rest) →
      ∀ bound, least + 4 * text.length < bound → skipItem bound (text ++ more) = .ok rest
  | .entries .object, text => ∀ more least rest, Stops isMore more →
      (∀ bound, least ≤ bound → skipMembers bound false more = .ok rest) →
      ∀ bound, least + 4 * text.length ≤ bound →
        skipMembers bound true (text ++ more) = .ok rest ∧ skipMembers bound false (',' :: (text ++ more)) = .ok rest

theorem skips_name (h : text ∈ names) : Skips .value text := by
  intro space rest bound _ hbound
  simp only [names, List.mem_cons, List.not_mem_nil, or_false] at h
  rcases h with rfl | rfl | rfl
  all_goals
    obtain ⟨bound, rfl⟩ : ∃ b, bound = b + 1 := ⟨bound - 1, by simp at hbound; omega⟩
    rw [skipValueWithin_append]
    exact word_append _ rest

theorem skips_item {value : List Char} (before behind : Space) (hvalue : Strict .value value) (h : Skips .value value) :
    Skips (.entries .array) (before.text ++ value ++ behind.text) := by
  intro more least rest hmore hrest bound hbound
  simp only [List.length_append] at hbound
  obtain ⟨c, tail, rfl, -, -⟩ := head_value hvalue rfl
  simp only [List.length_cons] at hbound
  obtain ⟨bound, rfl⟩ : ∃ b, bound = b + 1 := ⟨bound - 1, by omega⟩
  have hskip := h before (behind.text ++ more) bound (stops_append behind hmore) (by simp; omega)
  rw [List.append_assoc, List.append_assoc, skipItem, hskip]
  show skipItems bound false (behind.text ++ more) = _
  rw [skipItems_append]
  exact hrest bound (by omega)

theorem skips_member {key value : List Char} (before gap gap' behind : Space) (hkey : Escaped key)
    (h : Skips .value value) :
    Skips (.entries .object) (before.text ++ (keyText key gap gap' ++ value) ++ behind.text) := by
  intro more least rest hmore hrest bound hbound
  have hlen : key.length + value.length + 3 ≤ (before.text ++ (keyText key gap gap' ++ value) ++ behind.text).length := by
    simp [keyText]
    omega
  obtain ⟨bound, rfl⟩ : ∃ b, bound = b + 1 := ⟨bound - 1, by omega⟩
  -- behind the opening quote of the key
  have hmember : before.text ++ (keyText key gap gap' ++ value) ++ behind.text ++ more =
      before.text ++ '"' :: (key ++ '"' :: (gap.text ++ ':' :: (gap'.text ++ (value ++ (behind.text ++ more))))) := by
    simp [keyText]
  have hskip : skipString (key ++ '"' :: (gap.text ++ ':' :: (gap'.text ++ (value ++ (behind.text ++ more))))) =
      .ok (gap.text ++ ':' :: (gap'.text ++ (value ++ (behind.text ++ more)))) := skipString_of_escaped hkey _
  have hvalue : skipValueWithin bound (gap'.text ++ (value ++ (behind.text ++ more))) = .ok (behind.text ++ more) :=
    h gap' (behind.text ++ more) bound (stops_append behind hmore) (by omega)
  have hmore : skipMembers bound false (behind.text ++ more) = .ok rest := by
    rw [skipMembers_append]
    exact hrest bound (by omega)
  obtain ⟨hfirst, hlater⟩ := nextMember_key before
    (key ++ '"' :: (gap.text ++ ':' :: (gap'.text ++ (value ++ (behind.text ++ more)))))
  rw [hmember]
  constructor
  · rw [skipMembers, hfirst]
    simp only [hskip, colon_cons, hvalue, hmore, bind, Except.bind]
  · rw [skipMembers, hlater]
    simp only [hskip, colon_cons, hvalue, hmore, bind, Except.bind]

theorem skips_comma {bracket : Bracket} {x y : List Char} (hx : Skips (.entries bracket) x)
    (hy : Skips (.entries bracket) y) : Skips (.entries bracket) (x ++ ',' :: y) := by
  cases bracket with
  | array =>
    intro more least rest hmore hrest bound hbound
    simp only [List.length_append, List.length_cons] at hbound
    rw [List.append_assoc, List.cons_append]
    refine hx (',' :: (y ++ more)) (least + 4 * y.length + 2) rest (stops_cons_iff.mpr rfl) ?_ bound (by omega)
    intro bound hbound
    obtain ⟨bound, rfl⟩ : ∃ b, bound = b + 1 := ⟨bound - 1, by omega⟩
    exact hy more least rest hmore hrest bound (by omega)
  | object =>
    intro more least rest hmore hrest bound hbound
    simp only [List.length_append, List.length_cons] at hbound
    rw [List.append_assoc, List.cons_append]
    refine hx (',' :: (y ++ more)) (least + 4 * y.length) rest (stops_cons_iff.mpr rfl) ?_ bound (by omega)
    intro bound hbound
    exact (hy more least rest hmore hrest bound hbound).2

theorem skips_full {bracket : Bracket} {inner : List Char} (hinner : Strict (.entries bracket) inner)
    (h : Skips (.entries bracket) inner) : Skips .value (bracket.opening :: inner ++ [bracket.closing]) := by
  intro space rest bound hrest hbound
  obtain ⟨bound, rfl⟩ : ∃ b, bound = b + 2 := ⟨bound - 2, by simp at hbound; omega⟩
  simp only [List.cons_append, List.length_cons, List.length_append, List.length_nil] at hbound
  rw [skipValueWithin_append, List.cons_append, List.cons_append, List.append_assoc, List.singleton_append]
  cases bracket with
  | array =>
    obtain ⟨c, more, hfirst, hc⟩ := head_items hinner rfl (']' :: rest)
    have hend : ∀ bound, 1 ≤ bound → skipItems bound false (']' :: rest) = .ok rest := by
      intro bound hbound
      obtain ⟨bound, rfl⟩ : ∃ b, bound = b + 1 := ⟨bound - 1, by omega⟩
      rfl
    have hitems := h (']' :: rest) 1 rest (stops_cons_iff.mpr rfl) hend bound (by omega)
    show skipItems (bound + 1) true (inner ++ ']' :: rest) = _
    rw [← skipItem_skipSpace, hfirst] at hitems
    rw [skipItems_first hfirst hc, hitems]
  | object =>
    have hend : ∀ bound, 1 ≤ bound → skipMembers bound false ('\x7d' :: rest) = .ok rest := by
      intro bound hbound
      obtain ⟨bound, rfl⟩ : ∃ b, bound = b + 1 := ⟨bound - 1, by omega⟩
      rfl
    exact (h ('\x7d' :: rest) 1 rest (stops_cons_iff.mpr rfl) hend (bound + 1) (by omega)).1

theorem skips_empty (bracket : Bracket) (inner : Space) :
    Skips .value (bracket.opening :: inner.text ++ [bracket.closing]) := by
  intro space rest bound _ hbound
  obtain ⟨bound, rfl⟩ : ∃ b, bound = b + 2 := ⟨bound - 2, by simp at hbound; omega⟩
  rw [skipValueWithin_append, List.cons_append, List.cons_append, List.append_assoc, List.singleton_append]
  cases bracket with
  | array =>
    show skipItems (bound + 1) true (inner.text ++ ']' :: rest) = _
    rw [skipItems_append]
    rfl
  | object =>
    show skipMembers (bound + 1) true (inner.text ++ '\x7d' :: rest) = _
    rw [skipMembers_append]
    rfl

/-- **Every part of a strict text is passed over whole.** -/
theorem skips_of_strict {part : Part} (h : Strict part text) : Skips part text := by
  induction h with
  | @string body h =>
    intro space rest bound _ hbound
    obtain ⟨bound, rfl⟩ : ∃ b, bound = b + 1 := ⟨bound - 1, by simp at hbound; omega⟩
    rw [skipValueWithin_append, List.cons_append, List.cons_append, List.append_assoc]
    exact skipString_of_escaped h rest
  | number n =>
    intro space rest bound hrest hbound
    obtain ⟨c, more, hn, hc⟩ := head_numeral n
    obtain ⟨bound, rfl⟩ : ∃ b, bound = b + 1 := ⟨bound - 1, by simp [hn] at hbound; omega⟩
    have hskip := skipNumber_append n hrest
    rw [skipValueWithin_append]
    rw [hn, List.cons_append] at hskip ⊢
    rw [skipValueWithin_number hc, hskip]
  | name h => exact skips_name h
  | empty bracket space => exact skips_empty bracket space
  | full h ih => exact skips_full h ih
  | item before behind h ih => exact skips_item before behind h ih
  | member before gap gap' behind hkey _ ih => exact skips_member before gap gap' behind hkey ih
  | comma _ _ ihx ihy => exact skips_comma ihx ihy

/-- **What is left behind a value is what stands behind it.** -/
theorem skipValue_append (h : Strict .value text) (space : Space) (hrest : Stops isMore rest) :
    skipValue (space.text ++ (text ++ rest)) = .ok rest :=
  skips_of_strict h space rest _ hrest (by simp only [List.length_append]; omega)

end ManifestBump.Notation.Json

import ManifestBump.Proofs.Json.Moved
import ManifestBump.Proofs.Text.Bytes

/-! The bytes of JSON texts.

The outline of a text is found in its bytes: all that counts is ASCII, and the bytes of any other character are passed
over one by one, also when a backslash hides the first of them (`Outline.scan_bytes`). The end of a block comment is
looked for behind a cut, which never fails (`Outline.scanBytes?_eq`). -/
namespace ManifestBump.Json
open Text

/-! ### The bytes of a text -/

/-- The bytes of a text in UTF-8, each as a character. -/
def bytes (text : List Char) : List Char :=
  text.flatMap fun c => (String.utf8EncodeChar c).map fun b => Char.ofNat b.toNat

theorem bytes_cons (c : Char) (text : List Char) :
    bytes (c :: text) = ((String.utf8EncodeChar c).map fun b => Char.ofNat b.toNat) ++ bytes text := rfl

/-- An ASCII character is its own byte. -/
theorem bytes_ascii {c : Char} (h : c.utf8Size = 1) (text : List Char) : bytes (c :: text) = c :: bytes text := by
  have hle : c.toNat ≤ 127 := Char.utf8Size_eq_one_iff.mp h
  have hbyte : c.val.toUInt8.toNat = c.toNat := by
    rw [UInt32.toNat_toUInt8]
    exact Nat.mod_eq_of_lt (show c.toNat < 256 by omega)
  rw [bytes_cons, String.utf8EncodeChar_eq_singleton h, List.map_singleton, hbyte, Char.ofNat_toNat,
    List.singleton_append]

/-- A character or byte that is not ASCII. -/
def isWide (c : Char) : Bool := 128 ≤ c.toNat

theorem isWide_eq_false_iff {c : Char} : isWide c = false ↔ c.utf8Size = 1 := by
  rw [Char.utf8Size_eq_one_iff, isWide, decide_eq_false_iff_not]
  show ¬128 ≤ c.toNat ↔ c.toNat ≤ 127
  omega

/-- No other character has an ASCII byte. -/
theorem bytes_wide {c : Char} (h : isWide c = true) (text : List Char) :
    ∃ b rest, bytes (c :: text) = b :: rest ++ bytes text ∧ rest.length + 1 = c.utf8Size ∧
      ∀ d ∈ b :: rest, isWide d = true := by
  have hgt : ¬c.val.toNat ≤ 127 := by
    have : 128 ≤ c.val.toNat := by simpa [isWide] using h
    omega
  have hall : ∀ b ∈ String.utf8EncodeChar c, 128 ≤ b.toNat := by
    simp only [String.utf8EncodeChar, if_neg hgt]
    split
    · simp
      omega
    · split
      · simp
        omega
      · simp
        omega
  have hwide : ∀ d ∈ (String.utf8EncodeChar c).map fun b => Char.ofNat b.toNat, isWide d = true := by
    intro d hd
    obtain ⟨b, hb, rfl⟩ := List.mem_map.mp hd
    have hvalid : b.toNat.isValidChar := .inl (by have := b.toNat_lt; omega)
    rw [isWide, Char.toNat_ofNat, if_pos hvalid, decide_eq_true (hall b hb)]
  have hne : ((String.utf8EncodeChar c).map fun b => Char.ofNat b.toNat) ≠ [] := by simp
  obtain ⟨b, rest, heq⟩ := List.exists_cons_of_ne_nil hne
  have hlength : ((String.utf8EncodeChar c).map fun b => Char.ofNat b.toNat).length = c.utf8Size := by
    rw [List.length_map, String.length_utf8EncodeChar]
  rw [heq] at hlength
  exact ⟨b, rest, by rw [bytes_cons, heq], hlength, by rwa [← heq]⟩

/-- What is not ASCII is no structure. -/
theorem isPlain_of_isWide {c : Char} (h : isWide c = true) : Outline.isPlain c = true := by
  simp only [Outline.isPlain, Bool.not_eq_true', List.contains_eq_mem, decide_eq_false_iff_not]
  intro hmem
  have hnone : ∀ d ∈ ['"', '\'', '\\', '/', '*', '\n', '\x7b', '\x7d'], isWide d = false := by
    simp [isWide]
  rw [hnone c hmem] at h
  cases h

/-- The byte in front tells an ASCII character. -/
theorem head?_bytes {c : Char} (h : isWide c = false) (text : List Char) :
    (bytes text).head? = some c ↔ text.head? = some c := by
  cases text with
  | nil => simp [bytes]
  | cons a text =>
    by_cases hwide : isWide a = true
    · obtain ⟨b, rest, hbytes, -, hall⟩ := bytes_wide hwide text
      have hb := hall b List.mem_cons_self
      rw [hbytes]
      simp only [List.cons_append, List.head?_cons, Option.some.injEq]
      constructor
      · rintro rfl
        rw [h] at hb
        cases hb
      · rintro rfl
        rw [h] at hwide
        cases hwide
    · rw [bytes_ascii (isWide_eq_false_iff.mp (by simpa using hwide))]
      rfl

/-- ASCII characters are told from the bytes in front. -/
theorem exists_of_take_bytes {c : Char} (h : isWide c = false) {n : Nat} {text more : List Char}
    (htake : (bytes text).take (n + 1) = c :: more) : ∃ rest, text = c :: rest ∧ (bytes rest).take n = more := by
  have hhead := congrArg List.head? htake
  rw [List.head?_take, if_neg (Nat.succ_ne_zero n)] at hhead
  obtain ⟨rest, rfl⟩ := List.head?_eq_some_iff.mp ((head?_bytes h text).mp hhead)
  rw [bytes_ascii (isWide_eq_false_iff.mp h), List.take_succ_cons, List.cons.injEq] at htake
  exact ⟨rest, rfl, htake.2⟩

theorem bytes_append (front back : List Char) : bytes (front ++ back) = bytes front ++ bytes back := by
  rw [bytes, List.flatMap_append]
  rfl

theorem length_bytes (text : List Char) : (bytes text).length = byteSize text := by
  induction text with
  | nil => rfl
  | cons c text ih =>
    rw [bytes_cons, List.length_append, List.length_map, String.length_utf8EncodeChar, ih, byteSize_cons]

theorem drop_bytes (text : List Char) (n : Nat) : (bytes text).drop (byteOffset text n) = bytes (text.drop n) := by
  conv_lhs => rw [← List.take_append_drop n text, bytes_append]
  rw [List.take_append_drop, byteOffset, ← length_bytes, List.drop_left]

end Json

/-! ### The outline in bytes -/

namespace Outline
open Text Json

/-- Of the character behind, a step asks only whether it is there and whether it makes a comment. -/
theorem step_congr_next {next next' : Option Char} (hnone : next = none ↔ next' = none)
    (hslash : next = some '/' ↔ next' = some '/') (hstar : next = some '*' ↔ next' = some '*') (mode : Mode) (n d : Nat)
    (c : Char) : step mode n d c next = step mode n d c next' := by
  cases mode <;> simp only [step, hnone, hslash, hstar]

theorem Mode.Within.relabel {f : Nat → Nat} {mode : Mode} (h : mode.Within fun _ => True) :
    (mode.relabel f).Within fun _ => True := by
  cases mode with
  | string q s => exact ⟨h.1, trivial⟩
  | _ => trivial

/-- A character that has been hidden or taken along is left behind, whatever its bytes. -/
theorem scanFrom_drop_bytes {mode : Mode} (h : mode.Within fun _ => True) (c : Char) (rest : List Char) (n d : Nat) :
    scanFrom mode (n + 1) d ((bytes (c :: rest)).drop 1) = scanFrom mode (n + c.utf8Size) d (bytes rest) := by
  by_cases hwide : isWide c = true
  · obtain ⟨b, more, hbytes, hsize, hall⟩ := bytes_wide hwide rest
    rw [hbytes, List.cons_append, List.drop_one, List.tail_cons,
      scanFrom_plain (fun d hd => isPlain_of_isWide (hall d (List.mem_cons_of_mem _ hd))) h, ← hsize]
    congr 1
    omega
  · have hone := isWide_eq_false_iff.mp (by simpa using hwide)
    rw [bytes_ascii hone, hone]
    rfl

/-- Over a character that is not ASCII the scan goes on in the same mode, and so it does over its bytes. -/
theorem scanFrom_wide {c : Char} (h : isWide c = true) {mode : Mode} (hmode : mode.Within fun _ => True)
    (rest : List Char) (n d : Nat) :
    scanFrom mode n d (c :: rest) = scanFrom mode (n + 1) d rest ∧
      scanFrom mode n d (bytes (c :: rest)) = scanFrom mode (n + c.utf8Size) d (bytes rest) := by
  constructor
  · have hplain : ∀ d ∈ [c], isPlain d = true := by
      intro d hd
      rw [List.mem_singleton.mp hd]
      exact isPlain_of_isWide h
    exact scanFrom_plain hplain hmode n d rest
  · obtain ⟨b, more, hbytes, hsize, hall⟩ := bytes_wide h rest
    rw [hbytes, scanFrom_plain (fun d hd => isPlain_of_isWide (hall d hd)) hmode, List.length_cons, hsize]

/-- At an ASCII character, the same step is made in bytes. -/
theorem step_bytes {text front rest : List Char} {c : Char} (htext : text.drop front.length = c :: rest)
    (hone : c.utf8Size = 1) (mode : Mode) (d : Nat) :
    step (mode.relabel (byteOffset text)) (byteOffset text front.length) d c (bytes rest).head? =
      let t := step mode front.length d c rest.head?
      ⟨t.more, t.found.relabel (byteOffset text), t.mode.relabel (byteOffset text), t.depth⟩ := by
  have hslash := head?_bytes (show isWide '/' = false by decide) rest
  have hstar := head?_bytes (show isWide '*' = false by decide) rest
  have hnone : (bytes rest).head? = none ↔ rest.head? = none := by
    cases rest with
    | nil => rfl
    | cons a rest => simp [bytes_cons]
  have hsucc := byteOffset_succ htext
  rw [hone] at hsucc
  have hsucc₂ : rest.head? = some '/' →
      byteOffset text (front.length + 2) = byteOffset text front.length + 2 := by
    intro hhead
    obtain ⟨tail, rfl⟩ := List.head?_eq_some_iff.mp hhead
    have hdrop : text.drop (front.length + 1) = '/' :: tail := by
      rw [← List.drop_drop, htext]
      rfl
    rw [byteOffset_succ hdrop, hsucc]
    rfl
  rw [step_congr_next hnone hslash hstar]
  exact step_relabel _ _ _ _ _ _ hsucc hsucc₂

/-- **The scan finds in bytes what it finds in characters.** -/
theorem scanFrom_bytes {text : List Char} (front rest : List Char) (htext : text = front ++ rest) {mode : Mode}
    (hmode : mode.Within fun _ => True) (d : Nat) :
    scanFrom (mode.relabel (byteOffset text)) (byteOffset text front.length) d (bytes rest) =
      (scanFrom mode front.length d rest).relabel (byteOffset text) := by
  induction hlen : rest.length using Nat.strong_induction_on generalizing front rest mode d with
  | _ len ih =>
    cases rest with
    | nil =>
      rw [show bytes [] = [] from rfl, scanFrom_nil, scanFrom_nil]
      cases mode <;> rfl
    | cons c rest =>
      have hdrop : text.drop front.length = c :: rest := by rw [htext, List.drop_left]
      have hsucc := byteOffset_succ hdrop
      have hnext : ∀ {mode : Mode} (d : Nat), mode.Within (fun _ => True) →
          scanFrom (mode.relabel (byteOffset text)) (byteOffset text (front.length + 1)) d (bytes rest) =
            (scanFrom mode (front.length + 1) d rest).relabel (byteOffset text) := by
        intro mode d hmode
        have := ih rest.length (by rw [← hlen]; simp) (front ++ [c]) rest (by rw [htext]; simp) hmode d rfl
        simpa using this
      by_cases hwide : isWide c = true
      · obtain ⟨hchars, -⟩ := scanFrom_wide hwide hmode rest front.length d
        obtain ⟨-, hbytes⟩ := scanFrom_wide hwide hmode.relabel rest (byteOffset text front.length) d
        rw [hbytes, ← hsucc, hchars]
        exact hnext d hmode
      · have hone := isWide_eq_false_iff.mp (by simpa using hwide)
        have hstep := step_bytes hdrop hone mode d
        rw [hone] at hsucc
        set t := step mode front.length d c rest.head? with ht
        have hmode' : t.mode.Within fun _ => True :=
          (step_within d c rest.head? hmode trivial trivial).2
        rw [bytes_ascii hone, scanFrom_cons, scanFrom_cons, hstep, ← ht, relabel_append, ← hsucc]
        show _ ++ scanFrom (t.mode.relabel _) (byteOffset text (front.length + 1) + t.more) t.depth
            ((bytes rest).drop t.more) =
          _ ++ (scanFrom t.mode (front.length + 1 + t.more) t.depth (rest.drop t.more)).relabel _
        congr 1
        have hmore : t.more ≤ 1 := step_more_le mode front.length d c _
        rcases Nat.le_one_iff_eq_zero_or_eq_one.mp hmore with hmore | hmore
        · rw [hmore]
          exact hnext t.depth hmode'
        · -- The character behind is taken along.
          have hlong := step_more_le_length mode front.length d c rest
          rw [← ht, hmore] at hlong
          obtain ⟨a, rest, rfl⟩ := List.exists_cons_of_ne_nil (List.ne_nil_of_length_pos hlong)
          have hdrop : text.drop (front.length + 1) = a :: rest := by
            rw [htext, List.drop_length_add_append]
            rfl
          have := ih rest.length (by rw [← hlen]; simp only [List.length_cons]; omega) (front ++ [c, a]) rest
            (by rw [htext]; simp) hmode' t.depth rfl
          rw [hmore, scanFrom_drop_bytes hmode'.relabel, ← byteOffset_succ hdrop]
          simpa using this

/-- **The outline of the bytes is the outline of the text**, counted in bytes. -/
theorem scan_bytes (text : List Char) : scan (bytes text) = (scan text).relabel (byteOffset text) :=
  scanFrom_bytes [] text rfl (show Mode.Within (fun _ => True) .code from trivial) 0

theorem within_scan (text : List Char) : (scan text).Within (· ≤ text.length) :=
  scanFrom_within (show Mode.Within (· ≤ text.length) .code from trivial) 0 text fun k _ hk => by omega

theorem monotone_byteOffset (text : List Char) : Monotone (byteOffset text) (· ≤ text.length) :=
  fun _ _ hm hn => byteOffset_lt_iff hm hn

/-- The outline of a text, found in its bytes. The end of a block comment is looked for behind its opening, so the text
is cut there. -/
def scanBytes? (text : List Char) : Option Outline :=
  let outline := scan (bytes text)
  let isCut (s : Span) : Bool :=
    ((bytes text).drop s.start).take 2 != ['/', '*'] || (cut? text (s.start + 2)).isSome
  if outline.literals.all isCut then some outline else none

theorem scanBytes?_eq (text : List Char) : scanBytes? text = some ((scan text).relabel (byteOffset text)) := by
  simp only [scanBytes?, scan_bytes]
  refine if_pos (List.all_eq_true.mpr fun s hs => ?_)
  obtain ⟨s, -, rfl⟩ := List.mem_map.mp hs
  rw [drop_bytes]
  by_cases hopens : (bytes (text.drop s.start)).take 2 = ['/', '*']
  · obtain ⟨tail, htail, hopens⟩ := exists_of_take_bytes (by decide) hopens
    obtain ⟨tail, rfl, -⟩ := exists_of_take_bytes (by decide) hopens
    have hnext : text.drop (s.start + 1) = '*' :: tail := by
      rw [← List.drop_drop, htail]
      rfl
    have hsize : byteOffset text s.start + 2 = byteOffset text (s.start + 2) := by
      rw [byteOffset_succ hnext, byteOffset_succ htail]
      rfl
    simp only [hsize, cut?_byteOffset, Option.isSome_some, Bool.or_true]
  · simp only [bne_iff_ne.mpr hopens, Bool.true_or]

end Outline
end ManifestBump

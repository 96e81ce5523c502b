import ManifestBump.Proofs.Text.Cut
import ManifestBump.Proofs.Text.Edit
import ManifestBump.Proofs.Version.Text
import ManifestBump.Text.Blank

/-! Texts in which one version is exchanged for another.

An `Exchange` is an edit whose two sides are written with the characters of versions, the new one
with a dot. Lines begin at the same places before and afterwards (`Exchange.atLineStart_shift`). -/
namespace ManifestBump
open Text

/-! ### Characters of versions -/

/-- Characters that are not those of versions: they separate, open, close or escape something. -/
theorem ne_of_isVersionChar {c d : Char} (h : isVersionChar c = true) (hd : isVersionChar d = false) :
    c ≠ d := by
  intro heq
  subst heq
  rw [h] at hd
  cases hd

/-- No character of a version is white space. -/
theorem isBlank_of_isVersionChar {c : Char} (h : isVersionChar c = true) : isBlank c = false := by
  simp only [isVersionChar, Char.isAlphanum, Char.isAlpha, Char.isUpper, Char.isLower, Char.isDigit,
    Bool.or_eq_true, Bool.and_eq_true, decide_eq_true_eq, beq_iff_eq, ge_iff_le,
    UInt32.le_iff_toNat_le] at h
  change (((((65 ≤ c.toNat ∧ c.toNat ≤ 90) ∨ (97 ≤ c.toNat ∧ c.toNat ≤ 122)) ∨
    (48 ≤ c.toNat ∧ c.toNat ≤ 57)) ∨ c = '-') ∨ c = '.') ∨ c = '+' at h
  rcases h with ((((h | h) | h) | rfl) | rfl) | rfl
  · simp [isBlank]
    omega
  · simp [isBlank]
    omega
  · simp [isBlank]
    omega
  · decide
  · decide
  · decide

theorem isIndent_of_isVersionChar {c : Char} (h : isVersionChar c = true) : isIndent c = false := by
  have h₁ := ne_of_isVersionChar h (d := ' ') (by decide)
  have h₂ := ne_of_isVersionChar h (d := '\t') (by decide)
  simp [isIndent, h₁, h₂]

/-! ### Exchanges -/

/-- Both sides of an edit are written with the characters of versions. -/
structure Text.Edit.Versions (e : Text.Edit) : Prop where
  old : Release.Written e.old
  new : Release.Written e.new

theorem Text.Edit.Versions.proper {e : Text.Edit} (h : e.Versions) : e.Proper := ⟨h.old.ne_nil, h.new.ne_nil⟩

/-- An edit that exchanges one version for another, which has a dot in it. -/
structure Exchange extends Text.Edit where
  old_written : Release.Written old
  new_written : Release.Written new
  dot_mem : '.' ∈ new

namespace Exchange
variable (e : Exchange)

theorem versions : e.toEdit.Versions := ⟨e.old_written, e.new_written⟩

theorem proper : e.toEdit.Proper := e.versions.proper

/-! ### Where lines begin -/

theorem atLineStart_eq_false {text : List Char} {n : Nat} {c : Char} (hc : isVersionChar c = true)
    (h : (text.take n).getLast? = some c) : (Cursor.at text n).atLineStart = false := by
  have hline := ne_of_isVersionChar hc (d := '\n') (by decide)
  simp [Cursor.at, Cursor.atLineStart, h, hline]

/-- No line begins behind a character of the version. -/
theorem atLineStart_inside {front version : List Char} (hversion : Release.Written version) {k : Nat}
    (hpos : 0 < k) (hle : k ≤ version.length) (back : List Char) :
    (Cursor.at (front ++ version ++ back) (front.length + k)).atLineStart = false := by
  have htake : (front ++ version ++ back).take (front.length + k) = front ++ version.take k := by
    rw [List.append_assoc, List.take_length_add_append, List.take_append_of_le_length hle]
  have hne : version.take k ≠ [] := by
    intro hnil
    have := congrArg List.length hnil
    simp only [List.length_take, List.length_nil] at this
    omega
  refine atLineStart_eq_false (c := (version.take k).getLast hne) ?_ ?_
  · exact hversion.chars _ (List.take_subset _ _ (List.getLast_mem hne))
  · rw [htake, List.getLast?_append, List.getLast?_eq_some_getLast hne]
    rfl

/-- Behind the version a line begins where a line feed of the rest ends. -/
theorem atLineStart_behind {front version : List Char} (hversion : Release.Written version)
    (back : List Char) (k : Nat) :
    (Cursor.at (front ++ version ++ back) (front.length + version.length + k)).atLineStart =
      ((back.take k).getLast? == some '\n') := by
  have htake : (front ++ version ++ back).take (front.length + version.length + k) =
      front ++ version ++ back.take k := by
    rw [← List.length_append, List.take_length_add_append]
  have hc := List.getLast?_eq_some_getLast hversion.ne_nil
  set c := version.getLast hversion.ne_nil
  have hline := ne_of_isVersionChar (hversion.chars c (List.mem_of_getLast? hc)) (d := '\n') (by decide)
  simp only [Cursor.at, Cursor.atLineStart, htake, List.getLast?_append, hc]
  cases (back.take k).getLast? with
  | none => simp [hline]
  | some d => simp

/-- Lines begin at the same places afterwards. -/
theorem atLineStart_shift {e : Text.Edit} (h : e.Versions) {n : Nat} (hn : e.Outside n) :
    (Cursor.at e.after (e.shift n)).atLineStart = (Cursor.at e.before n).atLineStart := by
  rcases hn with hn | hn
  · simp only [Cursor.atLineStart, Cursor.at, Edit.take_eq_take hn]
  · obtain ⟨k, rfl⟩ := Nat.exists_eq_add_of_le hn
    have hshift : e.shift (e.stop + k) = e.front.length + e.new.length + k := by
      rw [Edit.shift_of_stop_le h.proper hn]
      simp only [Edit.stop]
      omega
    rw [hshift]
    exact (atLineStart_behind h.new e.back k).trans (atLineStart_behind h.old e.back k).symm

end Exchange
end ManifestBump

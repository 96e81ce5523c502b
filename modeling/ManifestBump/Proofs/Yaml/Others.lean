import ManifestBump.Proofs.Yaml.Swap

/-! Other keys after a value has been set.

A key without a colon is read up to the first colon of its line, so all such keys read the same value there
(`leafOf?_colon`), and whether the line opens a block depends on nothing between the blank behind the colon and the
end of the value (`opensBlock_blank`). Hence every other value is found again when one is set, whatever stands in the
text (`find?_follows`). -/
namespace ManifestBump.Yaml
open Text

/-! ### Keys without colons -/

/-- The indentation at which a key without a colon is read in front of the first colon of a line. -/
def indentAt? (key p : List Char) : Option Nat := (frontOf? key (p ++ [':'])).map Prod.fst

section Colon
variable {key p : List Char} (hkey : ':' ∉ key) (hp : ':' ∉ p) (rest : List Char)
include hkey hp

theorem frontOf?_colon :
    frontOf? key (p ++ ':' :: rest) = (indentAt? key p).map fun indent => (indent, p ++ [':'], rest) := by
  cases hfront : frontOf? key (p ++ ':' :: rest) with
  | some found =>
    obtain ⟨indent, lead, tail⟩ := found
    obtain ⟨heq, hspelled, hmax⟩ := frontOf?_eq_some_iff.mp hfront
    obtain ⟨front, rfl, hchars⟩ := hspelled.exists_colon
    have hfirst : ∀ q : List Char, ':' ∉ q → ∀ c ∈ q, (c != ':') = true := by
      intro q hq c hc
      rw [bne_iff_ne]
      rintro rfl
      exact hq hc
    have hstop : ∀ more, Stops (· != ':') (':' :: more) := fun more => stops_cons_iff.mpr (by decide)
    rw [List.append_assoc, List.singleton_append] at heq
    obtain ⟨rfl, hrest⟩ := cut_unique (hfirst p hp) (hstop rest)
      (hfirst front fun hmem => hkey (hchars ':' (by decide) hmem)) (hstop tail) heq
    obtain ⟨-, rfl⟩ := List.cons.inj hrest
    have halone : frontOf? key (p ++ [':']) = some (indent, p ++ [':'], []) :=
      frontOf?_eq_some_iff.mpr ⟨(List.append_nil _).symm, hspelled, hmax⟩
    rw [indentAt?, halone]
    rfl
  | none =>
    have halone : frontOf? key (p ++ [':']) = none := by
      rw [frontOf?_eq_none_iff]
      intro lead tail indent hspelled heq
      refine frontOf?_eq_none_iff.mp hfront lead (tail ++ rest) indent hspelled ?_
      rw [← List.append_assoc, ← heq, List.append_assoc, List.singleton_append]
    rw [indentAt?, halone]
    rfl

/-- **All keys without colons read the same value on a line**, if they are read on it at all. -/
theorem leafOf?_colon : leafOf? key (p ++ ':' :: rest) = (indentAt? key p).bind fun indent =>
    (value? rest).map fun slot => (indent, slot.behind (p ++ [':'])) := by
  rw [leafOf?, leaf?_eq, frontOf?_colon hkey hp]
  cases indentAt? key p <;> rfl

theorem parentOf?_colon : parentOf? key (p ++ ':' :: rest) = (indentAt? key p).bind fun indent =>
    if opensBlock rest then some indent else none := by
  rw [parentOf?, parent?_eq, frontOf?_colon hkey hp]
  cases indentAt? key p <;> rfl

end Colon

/-- Behind a blank, a line opens a block whatever stands up to its end. -/
theorem opensBlock_blank {c : Char} {text : List Char} (hc : isIndent c = true)
    (htext : ∀ d ∈ c :: text, inLine d = true) (w : List Char) :
    opensBlock (c :: text ++ w) = (lineEnd? (w.dropWhile inLine)).isSome := by
  have hdrop : (c :: text ++ w).dropWhile inLine = w.dropWhile inLine := List.dropWhile_append_of_pos htext
  rw [← hdrop]
  show (if isIndent c then _ else _) = _
  rw [if_pos hc]

/-! ### The line of the value -/

/-- A value is exchanged on one of the lines of a text. Up to the first colon stands `p`, and from there `q` leads to
the value. -/
structure ValueLine (e : Edit) (front back : List (List Char)) (p q w close : List Char) : Prop where
  no_colon : ':' ∉ p
  reads : value? (q ++ e.old ++ w) = some ⟨q, e.old, close⟩
  place : front.flatten.length + (p ++ ':' :: q).length = e.front.length
  before : lines e.before = front ++ (p ++ ':' :: q ++ e.old ++ w) :: back
  after : lines e.after = front ++ (p ++ ':' :: q ++ e.new ++ w) :: back

section ValueLine
variable {e : Edit} {front back : List (List Char)} {p q w close : List Char} (h : ValueLine e front back p q w close)
include h

/-- Other values follow when the line of one becomes another line. -/
theorem ValueLine.swap_others {leaf : List Char} (hleaf : ':' ∉ leaf) :
    Swap (fun found => found.value ≠ e.oldSpan)
      (fun found found' => found'.value.slice e.after = found.value.slice e.before) leaf
      (p ++ ':' :: q ++ e.old ++ w) (p ++ ':' :: q ++ e.new ++ w) front.flatten.length where
  peers := by
    rw [List.append_assoc, List.append_assoc (p ++ ':' :: q)]
    exact peers_of_colon (by simp) _ _
  front hlocal offset hle := by
    have hplace := h.place
    refine ⟨id, fun found hfound _ => ⟨found, hfound, ?_⟩⟩
    obtain ⟨-, hstop⟩ := (hlocal.some offset found hfound).within
    exact Edit.slice_after_of_le (by omega)
  back hlocal := by
    have hplace := h.place
    refine ⟨hlocal.none _ _, fun found hfound _ => ?_⟩
    obtain ⟨base, rfl, hbase⟩ :=
      hlocal.exists_moved hfound (front.flatten.length + (p ++ ':' :: q ++ e.new ++ w).length)
    refine ⟨_, hbase, ?_⟩
    have hold : front.flatten.length + (p ++ ':' :: q ++ e.old ++ w).length = e.stop + w.length := by
      simp only [Edit.stop, List.length_append] at hplace ⊢
      omega
    have hnew : front.flatten.length + (p ++ ':' :: q ++ e.new ++ w).length =
        e.front.length + e.new.length + w.length := by
      simp only [List.length_append] at hplace ⊢
      omega
    rw [Occurrence.value_moved, Occurrence.value_moved, Span.slice_moved, Span.slice_moved, hold, hnew,
      Edit.drop_before, Edit.drop_after]
  leaf indent := by
    have hplace := h.place
    have hcut : ∀ x, p ++ ':' :: q ++ x ++ w = p ++ ':' :: (q ++ x ++ w) := by simp
    rw [leafIn, leafIn, hcut, hcut, leafOf?_colon hleaf h.no_colon, leafOf?_colon hleaf h.no_colon, h.reads]
    cases indentAt? leaf p with
    | none => exact Follows.nothing
    | some found =>
      by_cases hindent : found = indent
      · -- The value on this line is the one that is set.
        subst hindent
        simp only [Option.bind_some, Option.map_some, if_true]
        refine ⟨by rintro ⟨⟩, fun found hfound hne => absurd ?_ hne⟩
        cases hfound
        simp only [Slot.occurrence, Slot.behind, Edit.oldSpan, Edit.stop, List.length_append, List.length_cons,
          List.length_nil, Span.mk.injEq] at hplace ⊢
        omega
      · have hnone : ∀ slot? : Option Slot, ((slot?.map fun slot => (found, slot.behind (p ++ [':']))).bind
            fun place => if place.1 = indent then some (place.2.occurrence front.flatten.length) else none) = none := by
          rintro (_ | slot)
          · rfl
          · exact if_neg hindent
        rw [Option.bind_some, Option.bind_some, hnone, hnone]
        exact Follows.nothing

/-- The line opens the blocks it opened before. -/
theorem ValueLine.parentOf?_others (hnew : ∀ c ∈ e.new, inLine c = true) {key : List Char} (hkey : ':' ∉ key) :
    parentOf? key (p ++ ':' :: q ++ e.new ++ w) = parentOf? key (p ++ ':' :: q ++ e.old ++ w) := by
  obtain ⟨⟨c, q, rfl, hc⟩, hline⟩ := inLine_of_value? h.reads
  have hopens : ∀ x, (∀ d ∈ x, inLine d = true) → opensBlock (c :: q ++ x ++ w) =
      (lineEnd? (w.dropWhile inLine)).isSome := by
    intro x hx
    refine opensBlock_blank hc (fun d hd => ?_) w
    rcases List.mem_cons.mp hd with rfl | hd
    · exact hline d List.mem_cons_self
    · rcases List.mem_append.mp hd with hd | hd
      · exact hline d (by simp [hd])
      · exact hx d hd
  have hcut : ∀ x, p ++ ':' :: (c :: q) ++ x ++ w = p ++ ':' :: (c :: q ++ x ++ w) := by simp
  rw [hcut, hcut, parentOf?_colon hkey h.no_colon, parentOf?_colon hkey h.no_colon, hopens _ hnew,
    hopens _ fun d hd => hline d (by simp [hd])]

/-- **Every other value follows when one is exchanged on its line.** -/
theorem ValueLine.find?_follows {path : KeyPath} (hnew : ∀ c ∈ e.new, inLine c = true)
    (hpath : ∀ key ∈ path.segments, ':' ∉ key.toList ∧ '\n' ∉ key.toList) :
    Follows (fun place => place.value ≠ e.oldSpan)
      (fun place place' => place'.value.slice e.after = place.value.slice e.before)
      (find? e.before path) (find? e.after path) := by
  have hfeeds : ∀ key ∈ path.segments, '\n' ∉ key.toList := fun key hkey => (hpath key hkey).2
  obtain ⟨hcolon, hcolons⟩ := KeyPath.forall_toList (P := fun name => ':' ∉ name) fun key hkey => (hpath key hkey).1
  have hswap := h.swap_others hcolon
  rw [find?_eq_findLines hfeeds, find?_eq_findLines hfeeds, h.before, h.after]
  refine findLines_follows hswap (fun key hkey inner hinner indent others => ?_) front back (Nat.zero_add _)
  rw [parentIn, parentIn, h.parentOf?_others hnew (hcolons key hkey)]
  split
  · cases hblock : Block.childLines? indent others with
    | none => exact Follows.nothing
    | some block => exact hswap.back (hinner block)
  · exact Follows.nothing

end ValueLine

/-! ### Texts -/

/-- A value that was found stands on a line where it can be exchanged for another. -/
theorem exists_valueLine {text value : List Char} {path : KeyPath}
    (hpath : ∀ key ∈ path.segments, ':' ∉ key.toList ∧ '\n' ∉ key.toList)
    {found : Occurrence} (h : find? text path = some found) (hvalue : ∀ c ∈ value, inLine c = true) :
    ∃ e front back p q w close, ValueLine e front back p q w close ∧ e.before = text ∧ e.new = value ∧
      found.value = e.oldSpan := by
  obtain ⟨hkey, hfeed⟩ := (KeyPath.forall_toList (P := fun name => ':' ∉ name ∧ '\n' ∉ name) hpath).1
  obtain ⟨front, back, indent, slot, rest, hlines, hslot, rfl⟩ :=
    exists_line_of_find? (fun key hkey => (hpath key hkey).2) h
  -- The line of the value, cut at its first colon.
  obtain ⟨hmem, hlead, hold⟩ := lead_of_leafOf? hfeed hslot
  obtain ⟨p, q, hcut, hp⟩ := List.eq_append_cons_of_mem hmem
  let e : Edit := ⟨front.flatten ++ slot.lead, slot.value, value, rest ++ back.flatten⟩
  have hbefore : e.before = text := by
    rw [← flatten_lines text, hlines]
    simp [e, Edit.before]
  have hread : value? (q ++ e.old ++ rest) = some ⟨q, e.old, slot.close⟩ := by
    have hline : slot.lead ++ slot.value ++ rest = p ++ ':' :: (q ++ slot.value ++ rest) := by rw [hcut]; simp
    rw [hline, leafOf?_colon hkey hp] at hslot
    obtain ⟨found, -, hfound⟩ := Option.bind_eq_some_iff.mp hslot
    obtain ⟨inner, hinner, heq⟩ := Option.map_eq_some_iff.mp hfound
    obtain ⟨-, rfl⟩ := Prod.mk.inj heq
    obtain rfl : inner.lead = q := by simpa [Slot.behind] using hcut
    exact hinner
  have hfeed' : ∀ x : List Char, (∀ c ∈ x, inLine c = true) → '\n' ∉ x :=
    fun x hx hmem => absurd (hx _ hmem) (by decide)
  refine ⟨e, front, back, p, q, rest, slot.close, ⟨hp, hread, ?_, ?_, ?_⟩, hbefore, rfl, ?_⟩
  · rw [← hcut, ← List.length_append]
  · rw [hbefore, hlines, hcut]
  · rw [← hcut]
    exact lines_swap hlines (List.ne_nil_of_mem hmem) hlead (hfeed' _ hold) (hfeed' _ hvalue)
  · simp [e, Slot.occurrence, Edit.oldSpan, Edit.stop]

/-- **Every other value follows when one is set**, for keys without colons and line feeds. -/
theorem find?_follows {text value : List Char} {path other : KeyPath}
    (hpath : ∀ key ∈ path.segments, ':' ∉ key.toList ∧ '\n' ∉ key.toList)
    (hother : ∀ key ∈ other.segments, ':' ∉ key.toList ∧ '\n' ∉ key.toList)
    {found : Occurrence} (h : find? text path = some found) (hvalue : ∀ c ∈ value, inLine c = true) :
    Follows (fun place => place.value ≠ found.value)
      (fun place place' => place'.value.slice (found.value.splice text value) = place.value.slice text)
      (find? text other) (find? (found.value.splice text value) other) := by
  obtain ⟨e, front, back, p, q, w, close, hline, rfl, rfl, hspan⟩ := exists_valueLine hpath h hvalue
  rw [hspan, e.splice_oldSpan]
  exact hline.find?_follows hvalue hother

end ManifestBump.Yaml

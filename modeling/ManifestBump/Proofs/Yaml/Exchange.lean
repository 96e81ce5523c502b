import ManifestBump.Proofs.Version.Exchange
import ManifestBump.Proofs.Yaml.Line

/-! The line of a value after a version has been exchanged.

The version has a key in front of it on its line, so the line keeps its indentation, and what was a value of the
key is one afterwards (`leafOf?_exchange`). No key without a dot is spelled across the new version
(`spelled_in_front`), so the line opens the blocks it has opened before (`parentOf?_exchange`). -/
namespace ManifestBump.Yaml
open Text
variable {e : Exchange}

/-! ### Versions as values -/

theorem inLine_of_isVersionChar {c : Char} (h : isVersionChar c = true) : inLine c = true := by
  have h₁ := ne_of_isVersionChar h (d := '\n') (by decide)
  have h₂ := ne_of_isVersionChar h (d := '\r') (by decide)
  simp [inLine, h₁, h₂]

theorem isQuote_of_isVersionChar {c : Char} (h : isVersionChar c = true) : isQuote c = false := by
  have h₁ := ne_of_isVersionChar h (d := '"') (by decide)
  have h₂ := ne_of_isVersionChar h (d := '\'') (by decide)
  simp [isQuote, h₁, h₂]

theorem isSolid_of_isVersionChar {c : Char} (h : isVersionChar c = true) : isSolid c = true := by
  have hhash := ne_of_isVersionChar h (d := '#') (by decide)
  simp [isSolid, isIndent_of_isVersionChar h, hhash, inLine_of_isVersionChar h]

theorem isInner_of_isVersionChar {quote c : Char} (hquote : isQuote quote = true)
    (h : isVersionChar c = true) : isInner quote c = true := by
  have hne : c ≠ quote := by
    intro heq
    subst heq
    rw [isQuote_of_isVersionChar h] at hquote
    cases hquote
  simp [isInner, hne, inLine_of_isVersionChar h]

/-- A stretch of version characters is taken whole. -/
theorem bareRest?_version {version rest trail : List Char} (hchars : ∀ c ∈ version, isVersionChar c = true)
    (htrail : trail? rest = some trail) : bareRest? (version ++ rest) = some ⟨[], version, trail⟩ := by
  refine bareRest?_append_trail ?_ ?_ htrail
  · intro c hc
    exact ⟨inLine_of_isVersionChar (hchars c hc), isQuote_of_isVersionChar (hchars c hc)⟩
  · intro tail hne hsuffix
    obtain ⟨c, tail, rfl⟩ := List.exists_cons_of_ne_nil hne
    exact trail?_of_solid (isSolid_of_isVersionChar (hchars c (hsuffix.subset List.mem_cons_self))) _

theorem scalar?_exchange {text : List Char} {slot : Slot} (h : Scalar text slot) (hvalue : slot.value = e.old) :
    ∃ tail, text = slot.lead ++ e.old ++ tail ∧
      scalar? (slot.lead ++ e.new ++ tail) = some ⟨slot.lead, e.new, slot.close⟩ := by
  cases h with
  | @quoted quote value rest trail hquote _ htrail =>
    obtain rfl : value = e.old := hvalue
    refine ⟨quote :: rest, rfl, ?_⟩
    show scalar? (quote :: (e.new ++ quote :: rest)) = _
    rw [scalar?_quote hquote]
    refine quoted?_eq_some_iff.mpr ⟨e.new, rest, trail, rfl, fun c hc => ?_, htrail, rfl⟩
    exact isInner_of_isVersionChar hquote (e.new_written.chars c hc)
  | @bare c value rest trail _ _ _ htrail =>
    have hold : c :: value = e.old := hvalue
    refine ⟨rest, by rw [← hold]; rfl, ?_⟩
    obtain ⟨d, version, hnew⟩ := List.exists_cons_of_ne_nil e.new_written.ne_nil
    have hchars : ∀ c ∈ d :: version, isVersionChar c = true := by
      rw [← hnew]
      exact e.new_written.chars
    have hd := hchars d List.mem_cons_self
    have hhash := ne_of_isVersionChar hd (d := '#') (by decide)
    have hrest := bareRest?_version (fun c hc => hchars c (List.mem_cons_of_mem d hc)) htrail
    rw [hnew]
    show scalar? (d :: (version ++ rest)) = _
    rw [scalar?_bare (isQuote_of_isVersionChar hd) (isBlank_of_isVersionChar hd) hhash, hrest, Option.map_some]

/-! ### The line of the version -/

theorem stops_exchange {p : Char → Bool} (hp : ∀ c, isVersionChar c = true → p c = false) {version : List Char}
    (h : Release.Written version) (lead tail : List Char) (hlead : lead ≠ [] → Stops p lead) :
    Stops p (lead ++ version ++ tail) := by
  cases lead with
  | nil =>
    obtain ⟨c, rest, rfl⟩ := List.exists_cons_of_ne_nil h.ne_nil
    exact stops_cons_iff.mpr (hp c (h.chars c List.mem_cons_self))
  | cons c lead => exact stops_cons_iff.mpr (stops_cons_iff.mp (hlead (by simp)))

theorem value?_exchange {text : List Char} {slot : Slot} (h : value? text = some slot)
    (hvalue : slot.value = e.old) :
    ∃ tail, text = slot.lead ++ e.old ++ tail ∧
      value? (slot.lead ++ e.new ++ tail) = some ⟨slot.lead, e.new, slot.close⟩ := by
  obtain ⟨blanks, rest, inner, rfl, hne, hblanks, hrest, hinner, rfl⟩ := value?_eq_some_iff.mp h
  obtain ⟨tail, rfl, hnew⟩ := scalar?_exchange (scalar?_cases hinner) hvalue
  refine ⟨tail, by simp [Slot.behind], ?_⟩
  refine value?_eq_some_iff.mpr ⟨blanks, inner.lead ++ e.new ++ tail, _, by simp [Slot.behind], hne, hblanks, ?_,
    hnew, rfl⟩
  refine stops_exchange (fun c hc => isIndent_of_isVersionChar hc) e.new_written _ _ fun hlead => ?_
  rwa [List.append_assoc, stops_append_iff hlead] at hrest

theorem leafOf?_exchange {key line : List Char} {indent : Nat} {slot : Slot}
    (h : leafOf? key line = some (indent, slot)) (hvalue : slot.value = e.old) :
    ∃ tail, line = slot.lead ++ e.old ++ tail ∧
      leafOf? key (slot.lead ++ e.new ++ tail) = some (indent, ⟨slot.lead, e.new, slot.close⟩) := by
  obtain ⟨lead, rest, inner, hfront, hinner, rfl⟩ := leafOf?_eq_some_iff.mp h
  obtain ⟨tail, rfl, hnew⟩ := value?_exchange hinner hvalue
  obtain ⟨rfl, hspelled, hmax⟩ := frontOf?_eq_some_iff.mp hfront
  refine ⟨tail, by simp [Slot.behind], ?_⟩
  refine leafOf?_eq_some_iff.mpr ⟨lead, inner.lead ++ e.new ++ tail, _, ?_, hnew, rfl⟩
  exact frontOf?_eq_some_iff.mpr ⟨by simp [Slot.behind], hspelled, hmax⟩

/-! ### Blocks under a line -/

/-- No key without a dot reaches into the new version. -/
theorem spelled_in_front {key lead rest u w : List Char} {indent : Nat} (h : Spelled key lead indent)
    (hkey : '.' ∉ key) (heq : lead ++ rest = u ++ e.new ++ w) :
    ∃ y, u = lead ++ y ∧ rest = y ++ e.new ++ w := by
  obtain ⟨front, rfl, hdot⟩ := h.exists_colon
  rw [List.append_assoc, List.singleton_append] at heq
  rcases run_cases e.new_written.chars (by decide) heq with ⟨y, rfl, -⟩ | ⟨y, rfl, hrest⟩
  · exact absurd (hdot '.' (by decide) (by simp [e.dot_mem])) hkey
  · exact ⟨y, by simp, hrest⟩

/-- A stretch of a line that begins with neither a space nor a tab. -/
structure Visible (text : List Char) : Prop where
  ne_nil : text ≠ []
  first : Stops isIndent text
  chars : ∀ c ∈ text, inLine c = true

theorem visible_of_written {version : List Char} (h : Release.Written version) : Visible version := by
  refine ⟨h.ne_nil, ?_, fun c hc => inLine_of_isVersionChar (h.chars c hc)⟩
  obtain ⟨c, version, rfl⟩ := List.exists_cons_of_ne_nil h.ne_nil
  exact stops_cons_iff.mpr (isIndent_of_isVersionChar (h.chars c List.mem_cons_self))

/-- A line does not end in front of such a stretch. -/
theorem lineEnd?_visible {y value w : List Char} (hy : '\n' ∉ y) (hvalue : Visible value) :
    lineEnd? (y ++ value ++ w) = none := by
  obtain ⟨c, value, rfl⟩ := List.exists_cons_of_ne_nil hvalue.ne_nil
  have hc := hvalue.chars c List.mem_cons_self
  have hline : c ≠ '\n' := by
    rintro rfl
    cases hc
  match y with
  | [] => exact lineEnd?_of_inLine hc _
  | [d] =>
    have hd : d ≠ '\n' := fun heq => hy (by simp [heq])
    by_cases hreturn : d = '\r'
    · simp [lineEnd?, hreturn, hline]
    · simp [lineEnd?, hd, hreturn]
  | d :: d' :: y =>
    have hd : d ≠ '\n' := fun heq => hy (by simp [heq])
    have hd' : d' ≠ '\n' := fun heq => hy (by simp [heq])
    by_cases hreturn : d = '\r'
    · simp [lineEnd?, hreturn, hd']
    · simp [lineEnd?, hd, hreturn]

/-- What stands in front of such a stretch decides whether a line with it opens a block, and what stands
behind it. -/
theorem opensBlock_visible {y value w : List Char} (hy : '\n' ∉ y) (hvalue : Visible value) :
    opensBlock (y ++ value ++ w) =
      (y.head?.any isIndent && y.all inLine && (lineEnd? (w.dropWhile inLine)).isSome) := by
  obtain ⟨run, tail, rfl, hrun, htail⟩ := exists_cut inLine y
  have hnone := lineEnd?_visible (w := w) hy hvalue
  have hrest : lineEnd? ((run ++ tail ++ value ++ w).dropWhile inLine) =
      if (run ++ tail).all inLine then lineEnd? (w.dropWhile inLine) else none := by
    cases tail with
    | nil =>
      rw [List.append_nil, if_pos (List.all_eq_true.mpr hrun), List.append_assoc,
        List.dropWhile_append_of_pos hrun, List.dropWhile_append_of_pos hvalue.chars]
    | cons d tail =>
      have hd := stops_cons_iff.mp htail
      have htail' : '\n' ∉ d :: tail := fun hmem => hy (List.mem_append_right _ hmem)
      rw [if_neg (by simp [hd]), List.append_assoc, List.append_assoc, List.dropWhile_append_of_pos hrun,
        ← List.append_assoc, List.cons_append, List.cons_append, List.dropWhile_cons_of_neg (by simp [hd])]
      exact lineEnd?_visible htail' hvalue
  cases hwhole : run ++ tail with
  | nil =>
    rw [hwhole] at hnone
    obtain ⟨c, value, rfl⟩ := List.exists_cons_of_ne_nil hvalue.ne_nil
    have hc := stops_cons_iff.mp hvalue.first
    have hnone : lineEnd? (c :: (value ++ w)) = none := hnone
    show (if isIndent c then _ else (lineEnd? (c :: (value ++ w))).isSome) = _
    rw [hc, hnone]
    rfl
  | cons c y =>
    rw [hwhole] at hrest hnone
    rw [List.cons_append, List.cons_append] at hrest hnone ⊢
    show (if isIndent c then _ else _) = _
    rw [hrest, hnone, List.head?_cons, Option.any_some]
    cases isIndent c <;> cases (c :: y).all inLine <;> rfl

/-- The new version opens no block that the old one did not open. -/
theorem parentOf?_exchange {key u w : List Char} {indent : Nat} (hkey : '.' ∉ key) (hu : '\n' ∉ u)
    (h : parentOf? key (u ++ e.new ++ w) = some indent) : parentOf? key (u ++ e.old ++ w) = some indent := by
  obtain ⟨lead, rest, hfront, hopens⟩ := parentOf?_eq_some_iff.mp h
  obtain ⟨heq, hspelled, hmax⟩ := frontOf?_eq_some_iff.mp hfront
  obtain ⟨y, rfl, rfl⟩ := spelled_in_front hspelled hkey heq.symm
  have hy : '\n' ∉ y := fun hmem => hu (List.mem_append_right _ hmem)
  refine parentOf?_eq_some_iff.mpr ⟨lead, y ++ e.old ++ w, ?_, ?_⟩
  · exact frontOf?_eq_some_iff.mpr ⟨by simp, hspelled, hmax⟩
  · rw [opensBlock_visible hy (visible_of_written e.new_written)] at hopens
    rw [opensBlock_visible hy (visible_of_written e.old_written), hopens]

end ManifestBump.Yaml

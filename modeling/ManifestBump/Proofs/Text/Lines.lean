import Mathlib
import ManifestBump.Text.Basic
import ManifestBump.Proofs.Text.Search

/-! Texts line by line.

`Lines` says what `lines` yields: pieces with a line feed at their end and nowhere else, the last
of which may lack it. A search that only looks at the beginnings of lines, and passes over the rest
of a line or over nothing, looks at one line after the other (`searchFrom_line`). -/
namespace ManifestBump.Text

/-- A line as it stands in a text: with a line feed at its end, or at the end of the text. -/
inductive Line : (line more : List Char) → Prop where
  | ended {body : List Char} (h : '\n' ∉ body) (more : List Char) : Line (body ++ ['\n']) more
  | last {body : List Char} (hne : body ≠ []) (h : '\n' ∉ body) : Line body []

/-- Pieces that are the lines of the text they make up. -/
inductive Lines : List (List Char) → Prop where
  | nil : Lines []
  | cons {line : List Char} {rest : List (List Char)} (h : Line line rest.flatten) (hrest : Lines rest) :
    Lines (line :: rest)

theorem Line.ne_nil {line more : List Char} (h : Line line more) : line ≠ [] := by
  cases h with
  | ended h more => simp
  | last hne h => exact hne

/-! ### The lines of a text -/

theorem lines_cons_of_not_mem {body : List Char} (hne : body ≠ []) (h : '\n' ∉ body) : lines body = [body] := by
  induction body with
  | nil => exact absurd rfl hne
  | cons c body ih =>
    have hc : c ≠ '\n' := fun heq => h (by rw [heq]; exact List.mem_cons_self)
    have hbody : '\n' ∉ body := fun hmem => h (List.mem_cons_of_mem _ hmem)
    cases body with
    | nil => simp [lines, hc]
    | cons d body => simp [lines.eq_2, hc, ih (by simp) hbody]

theorem lines_append_line {body : List Char} (h : '\n' ∉ body) (more : List Char) :
    lines (body ++ '\n' :: more) = (body ++ ['\n']) :: lines more := by
  induction body with
  | nil => simp [lines]
  | cons c body ih =>
    have hc : c ≠ '\n' := fun heq => h (by rw [heq]; exact List.mem_cons_self)
    have hbody : '\n' ∉ body := fun hmem => h (List.mem_cons_of_mem _ hmem)
    simp [lines.eq_2, hc, ih hbody]

/-- Pieces that are lines are found again in the text they make up. -/
theorem lines_flatten {ls : List (List Char)} (h : Lines ls) : lines ls.flatten = ls := by
  induction h with
  | nil => rfl
  | @cons line rest hline hrest ih =>
    rw [List.flatten_cons]
    generalize hmore : rest.flatten = more at hline
    cases hline with
    | ended hbody more =>
      rw [List.append_assoc, List.singleton_append, lines_append_line hbody, ← hmore, ih]
    | last hne hbody =>
      cases rest with
      | nil => rw [List.append_nil, lines_cons_of_not_mem hne hbody]
      | cons next rest =>
        cases hrest with
        | cons hnext _ => exact absurd (List.append_eq_nil_iff.mp hmore).1 hnext.ne_nil

theorem lines_lines (text : List Char) : Lines (lines text) := by
  induction hlen : text.length using Nat.strong_induction_on generalizing text with
  | _ len ih =>
    by_cases h : '\n' ∈ text
    · obtain ⟨body, more, rfl, hbody⟩ := List.eq_append_cons_of_mem h
      rw [lines_append_line hbody]
      refine .cons (.ended hbody _) (ih _ ?_ more rfl)
      rw [← hlen, List.length_append, List.length_cons]
      omega
    · cases text with
      | nil => exact .nil
      | cons c text =>
        rw [lines_cons_of_not_mem (by simp) h]
        exact .cons (.last (by simp) h) .nil

/-- Behind a text that is empty or ends with a line feed, lines are lines. -/
theorem lines_append_of_ended {front : List Char} (h : front = [] ∨ front.getLast? = some '\n') (back : List Char) :
    lines (front ++ back) = lines front ++ lines back := by
  induction hlen : front.length using Nat.strong_induction_on generalizing front with
  | _ len ih =>
    rcases h with rfl | h
    · rfl
    · have hmem : '\n' ∈ front := List.mem_of_getLast? h
      obtain ⟨body, more, rfl, hbody⟩ := List.eq_append_cons_of_mem hmem
      have hmore : more = [] ∨ more.getLast? = some '\n' := by
        cases more with
        | nil => exact .inl rfl
        | cons c more => simpa using h
      have hshort : more.length < len := by
        rw [← hlen, List.length_append, List.length_cons]
        omega
      rw [List.append_assoc, List.cons_append, lines_append_line hbody, lines_append_line hbody, ih _ hshort hmore rfl,
        List.cons_append]

/-- Lines behind lines are lines. -/
theorem Lines.of_append_right {a b : List (List Char)} (h : Lines (a ++ b)) : Lines b := by
  induction a with
  | nil => exact h
  | cons line a ih =>
    cases h with
    | cons _ hrest => exact ih hrest

theorem Lines.of_append_left {a b : List (List Char)} (h : Lines (a ++ b)) : Lines a := by
  induction a with
  | nil => exact .nil
  | cons line a ih =>
    cases h with
    | cons hline hrest =>
      refine .cons ?_ (ih hrest)
      have hline : Line line (a ++ b).flatten := hline
      rw [List.flatten_append] at hline
      generalize hmore : a.flatten ++ b.flatten = more at hline
      cases hline with
      | ended hbody more => exact .ended hbody _
      | last hne hbody =>
        rw [(List.append_eq_nil_iff.mp hmore).1]
        exact .last hne hbody

theorem Lines.ne_nil_of_mem {ls : List (List Char)} (h : Lines ls) {line : List Char} (hmem : line ∈ ls) :
    line ≠ [] := by
  induction h with
  | nil => cases hmem
  | cons hfirst _ ih =>
    rcases List.mem_cons.mp hmem with rfl | hmem
    · exact hfirst.ne_nil
    · exact ih hmem

/-! ### Lines in which something is exchanged -/

/-- A line keeps its end when something in it is exchanged. -/
theorem Line.swap {u old new w more : List Char} (h : Line (u ++ old ++ w) more) (hne : u ≠ []) (hu : '\n' ∉ u)
    (hold : '\n' ∉ old) (hnew : '\n' ∉ new) : Line (u ++ new ++ w) more := by
  generalize hline : u ++ old ++ w = line at h
  cases h with
  | @ended body hbody more =>
    rcases List.eq_nil_or_concat w with rfl | ⟨tail, c, rfl⟩
    · -- The line feed is neither in front nor in what was exchanged.
      have hmem : '\n' ∈ u ++ old ++ [] := by rw [hline]; simp
      simp [hu, hold] at hmem
    · rw [List.concat_eq_append, ← List.append_assoc] at hline
      obtain ⟨rfl, hc⟩ := List.append_inj' hline rfl
      obtain rfl := List.singleton_inj.mp hc
      simp only [List.mem_append, not_or] at hbody
      rw [List.concat_eq_append, ← List.append_assoc]
      exact .ended (by simp [hbody, hnew]) more
  | last hne' hbody =>
    subst hline
    simp only [List.mem_append, not_or] at hbody
    exact .last (by simp [hne]) (by simp [hbody, hnew])

theorem Lines.swap {line line' : List Char} {front back : List (List Char)} (h : Lines (front ++ line :: back))
    (hline : ∀ more, Line line more → Line line' more) : Lines (front ++ line' :: back) := by
  induction front with
  | nil =>
    cases h with
    | cons hfirst hrest => exact .cons (hline _ hfirst) hrest
  | cons first front ih =>
    cases h with
    | @cons _ _ hfirst hrest =>
      have hfirst : Line first (front ++ line :: back).flatten := hfirst
      refine .cons ?_ (ih hrest)
      generalize hmore : (front ++ line :: back).flatten = more at hfirst
      cases hfirst with
      | ended hbody more => exact .ended hbody _
      | last hne hbody =>
        -- Only the last line lacks its line feed.
        have hne' : line ≠ [] := hrest.ne_nil_of_mem (by simp)
        simp [hne'] at hmore

/-- The lines of a text in which something has been exchanged on one line. -/
theorem lines_swap {text u old new w : List Char} {front back : List (List Char)}
    (h : lines text = front ++ (u ++ old ++ w) :: back) (hne : u ≠ []) (hu : '\n' ∉ u) (hold : '\n' ∉ old)
    (hnew : '\n' ∉ new) :
    lines (front.flatten ++ u ++ new ++ (w ++ back.flatten)) = front ++ (u ++ new ++ w) :: back := by
  have hlines := lines_lines text
  rw [h] at hlines
  rw [← lines_flatten (hlines.swap fun more hline => hline.swap hne hu hold hnew)]
  simp

/-! ### Searches that look at lines -/

variable {α : Type}

theorem Line.not_mem_dropLast {line more : List Char} (h : Line line more) : '\n' ∉ line.dropLast := by
  cases h with
  | ended h more => simpa using h
  | last hne h => exact fun hmem => h (List.mem_of_mem_dropLast hmem)

theorem Lines.not_mem_dropLast {ls : List (List Char)} (h : Lines ls) {line : List Char} (hmem : line ∈ ls) :
    '\n' ∉ line.dropLast := by
  induction h with
  | nil => cases hmem
  | cons hfirst _ ih =>
    rcases List.mem_cons.mp hmem with rfl | hmem
    · exact hfirst.not_mem_dropLast
    · exact ih hmem

/-- Inside of a line the search goes on to its end, one by one or at once. -/
theorem searchFrom_inside {attempt : Cursor → Attempt α} {inside more : List Char} {offset skip : Nat}
    {last : Char} (hpass : ∀ cursor, cursor.atLineStart = false → attempt cursor = .pass 0)
    (hline : '\n' ∉ (last :: inside).dropLast) (hskip : skip = 0 ∨ skip = inside.length) :
    searchFrom attempt skip offset (some last) (inside ++ more) =
      searchFrom attempt 0 (offset + inside.length) (last :: inside).getLast? more := by
  induction inside generalizing offset skip last with
  | nil =>
    obtain rfl : skip = 0 := by simpa using hskip
    rfl
  | cons c inside ih =>
    rw [List.dropLast_cons_of_ne_nil (by simp)] at hline
    obtain ⟨hlast, hrest⟩ := not_or.mp (mt List.mem_cons.mpr hline)
    have hat : attempt ⟨offset, some last, c :: inside ++ more⟩ = .pass 0 :=
      hpass _ (by simp [Cursor.atLineStart, Ne.symm hlast])
    have hnext : ∀ skip, skip = 0 ∨ skip = inside.length →
        searchFrom attempt skip (offset + 1) (some c) (inside ++ more) =
          searchFrom attempt 0 (offset + (c :: inside).length) (last :: c :: inside).getLast? more := by
      intro skip hskip
      rw [ih hrest hskip, List.getLast?_cons_cons, List.length_cons]
      congr 1
      omega
    rcases hskip with rfl | rfl
    · rw [List.cons_append] at hat ⊢
      rw [searchFrom, hat]
      exact hnext 0 (.inl rfl)
    · exact hnext inside.length (.inr rfl)

/-- **One line after the other**, when an attempt passes over nothing or the rest of its line. -/
theorem searchFrom_line {attempt : Cursor → Attempt α} {line more : List Char} (hline : Line line more)
    {offset : Nat} {last : Option Char}
    (hpass : ∀ cursor, cursor.atLineStart = false → attempt cursor = .pass 0)
    (hskip : ∀ skip, attempt ⟨offset, last, line ++ more⟩ = .pass skip → skip = 0 ∨ skip = line.length - 1) :
    searchFrom attempt 0 offset last (line ++ more) =
      (attempt ⟨offset, last, line ++ more⟩).answer?.or
        (searchFrom attempt 0 (offset + line.length) line.getLast? more) := by
  have hmem := hline.not_mem_dropLast
  obtain ⟨c, inside, rfl⟩ := List.exists_cons_of_ne_nil hline.ne_nil
  rw [List.cons_append] at hskip ⊢
  rw [searchFrom]
  cases hat : attempt ⟨offset, last, c :: (inside ++ more)⟩ with
  | found answer => rfl
  | pass skip =>
    simp only [Attempt.answer?_pass, Option.none_or]
    rw [searchFrom_inside hpass hmem (by simpa using hskip skip hat), List.length_cons]
    congr 1
    omega

end ManifestBump.Text

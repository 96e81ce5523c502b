import Mathlib
import ManifestBump.Text.Basic

/-! Runs of characters at the front of a text.

Every scanner takes the longest run of one kind of character. A run ends where a character of
another kind begins (`Stops`), and with that the cut is told from its two sides
(`takeWhile_append`, `dropWhile_append`). -/
namespace ManifestBump.Text
variable {α : Type}

/-! ### Tests that agree -/

theorem takeWhile_congr {p q : α → Bool} {l : List α} (h : ∀ a ∈ l, p a = q a) :
    l.takeWhile p = l.takeWhile q := by
  induction l with
  | nil => rfl
  | cons a l ih =>
    rw [List.takeWhile_cons, List.takeWhile_cons, h a List.mem_cons_self,
      ih fun b hb => h b (List.mem_cons_of_mem _ hb)]

theorem dropWhile_congr {p q : α → Bool} {l : List α} (h : ∀ a ∈ l, p a = q a) :
    l.dropWhile p = l.dropWhile q := by
  induction l with
  | nil => rfl
  | cons a l ih =>
    rw [List.dropWhile_cons, List.dropWhile_cons, h a List.mem_cons_self,
      ih fun b hb => h b (List.mem_cons_of_mem _ hb)]

theorem any_congr {p q : α → Bool} {l : List α} (h : ∀ a ∈ l, p a = q a) : l.any p = l.any q := by
  induction l with
  | nil => rfl
  | cons a l ih =>
    rw [List.any_cons, List.any_cons, h a List.mem_cons_self,
      ih fun b hb => h b (List.mem_cons_of_mem _ hb)]

/-! ### Where a run ends -/

/-- The text does not begin with a character of this kind. -/
def Stops (p : α → Bool) (text : List α) : Prop := ∀ c ∈ text.head?, p c = false

variable {p : α → Bool}

theorem stops_nil : Stops p [] := by simp [Stops]

theorem stops_cons_iff {c : α} {text : List α} : Stops p (c :: text) ↔ p c = false := by simp [Stops]

theorem stops_dropWhile (text : List α) : Stops p (text.dropWhile p) := by
  induction text with
  | nil => exact stops_nil
  | cons c text ih =>
    cases hc : p c with
    | true => rwa [List.dropWhile_cons_of_pos hc]
    | false =>
      rw [List.dropWhile_cons_of_neg (by simp [hc])]
      exact stops_cons_iff.mpr hc

/-- What follows a text that is not empty does not matter. -/
theorem stops_append_iff {text : List α} (h : text ≠ []) (rest : List α) :
    Stops p (text ++ rest) ↔ Stops p text := by
  cases text with
  | nil => exact absurd rfl h
  | cons c text => rw [List.cons_append, stops_cons_iff, stops_cons_iff]

theorem takeWhile_append {run rest : List α} (hrun : ∀ c ∈ run, p c = true) (hrest : Stops p rest) :
    (run ++ rest).takeWhile p = run := by
  rw [List.takeWhile_append_of_pos hrun]
  cases rest with
  | nil => simp
  | cons c rest => simp [stops_cons_iff.mp hrest]

theorem dropWhile_append {run rest : List α} (hrun : ∀ c ∈ run, p c = true) (hrest : Stops p rest) :
    (run ++ rest).dropWhile p = rest := by
  rw [List.dropWhile_append_of_pos hrun]
  cases rest with
  | nil => rfl
  | cons c rest => simp [stops_cons_iff.mp hrest]

/-- A text and its cut. -/
theorem exists_cut (p : α → Bool) (text : List α) :
    ∃ run rest, text = run ++ rest ∧ (∀ c ∈ run, p c = true) ∧ Stops p rest :=
  ⟨text.takeWhile p, text.dropWhile p, List.takeWhile_append_dropWhile.symm,
    fun _ hc => List.mem_takeWhile_imp hc, stops_dropWhile text⟩

/-- A text is cut in one way only. -/
theorem cut_unique {run run' rest rest' : List α} (hrun : ∀ c ∈ run, p c = true) (hrest : Stops p rest)
    (hrun' : ∀ c ∈ run', p c = true) (hrest' : Stops p rest') (h : run ++ rest = run' ++ rest') :
    run = run' ∧ rest = rest' := by
  have htake := congrArg (List.takeWhile p) h
  rw [takeWhile_append hrun hrest, takeWhile_append hrun' hrest'] at htake
  subst htake
  exact ⟨rfl, List.append_cancel_left h⟩

/-- The last character of one kind stands in one place only. -/
theorem last_unique {x y u v : List α} {a b : α} (ha : p a = true) (hu : ∀ c ∈ u, p c = false) (hb : p b = true)
    (hv : ∀ c ∈ v, p c = false) (h : x ++ a :: u = y ++ b :: v) : x = y ∧ a = b ∧ u = v := by
  have hforeign : ∀ {c : α} {text z w : List α}, p c = true → (∀ d ∈ text, p d = false) → text ≠ z ++ c :: w := by
    rintro c text z w hc htext rfl
    have := htext c (by simp)
    rw [hc] at this
    cases this
  rcases List.append_eq_append_iff.mp h with ⟨z, rfl, hz⟩ | ⟨z, rfl, hz⟩
  · cases z with
    | nil => simpa using hz
    | cons c z => exact absurd (List.cons.inj hz).2 (hforeign hb hu)
  · cases z with
    | nil => simpa [eq_comm] using hz
    | cons c z => exact absurd (List.cons.inj hz).2 (hforeign ha hv)

/-- A run ends at the latest at a character of another kind. -/
theorem takeWhile_append_cons {stop : α} (hstop : p stop = false) (text rest : List α) :
    (text ++ stop :: rest).takeWhile p = text.takeWhile p := by
  obtain ⟨run, tail, rfl, hrun, htail⟩ := exists_cut p text
  rw [takeWhile_append hrun htail, List.append_assoc, takeWhile_append hrun]
  cases tail with
  | nil => exact stops_cons_iff.mpr hstop
  | cons c tail => exact stops_cons_iff.mpr (stops_cons_iff.mp htail)

theorem dropWhile_append_cons {stop : α} (hstop : p stop = false) (text rest : List α) :
    (text ++ stop :: rest).dropWhile p = text.dropWhile p ++ stop :: rest := by
  obtain ⟨run, tail, rfl, hrun, htail⟩ := exists_cut p text
  rw [dropWhile_append hrun htail, List.append_assoc, dropWhile_append hrun]
  cases tail with
  | nil => exact stops_cons_iff.mpr hstop
  | cons c tail => exact stops_cons_iff.mpr (stops_cons_iff.mp htail)

theorem takeWhile_of_stops {text : List α} (h : Stops p text) : text.takeWhile p = [] :=
  by simpa using takeWhile_append (List.forall_mem_nil _) h

theorem dropWhile_of_stops {text : List α} (h : Stops p text) : text.dropWhile p = text :=
  by simpa using dropWhile_append (List.forall_mem_nil _) h

/-- What stands behind a lead is looked for no further than a character that is not in it. -/
theorem after?_append_cons {lead : List Char} {stop : Char} (hstop : stop ∉ lead) (text rest : List Char) :
    after? lead (text ++ stop :: rest) = (after? lead text).map (· ++ stop :: rest) := by
  induction lead generalizing text with
  | nil => rfl
  | cons a lead ih =>
    obtain ⟨hne, hmem⟩ := not_or.mp (mt List.mem_cons.mpr hstop)
    cases text with
    | nil => simp [after?, Ne.symm hne]
    | cons c text =>
      by_cases hac : a = c
      · simp [after?, hac, ih hmem]
      · simp [after?, hac]

/-- A run lies on one side of a character of another kind. -/
theorem run_cases {run k t x b : List α} {stop : α} (hrun : ∀ c ∈ run, p c = true)
    (hstop : p stop = false) (h : k ++ stop :: t = x ++ run ++ b) :
    (∃ y, k = x ++ run ++ y ∧ b = y ++ stop :: t) ∨ ∃ y, x = k ++ stop :: y ∧ t = y ++ run ++ b := by
  have hforeign : ∀ front : List α, stop ∈ front → ∀ behind, run = behind ++ front → False := by
    rintro front hmem behind rfl
    have := hrun stop (List.mem_append_right _ hmem)
    rw [hstop] at this
    cases this
  rw [List.append_assoc] at h
  rcases List.append_eq_append_iff.mp h with ⟨a, rfl, ha⟩ | ⟨c, rfl, hc⟩
  · cases a with
    | nil =>
      cases run with
      | nil => exact .inl ⟨[], by simp, by simpa using ha.symm⟩
      | cons r run =>
        obtain ⟨rfl, -⟩ := List.cons.inj ha
        exact absurd rfl (hforeign _ List.mem_cons_self [])
    | cons s a =>
      obtain ⟨rfl, rfl⟩ := List.cons.inj ha
      exact .inr ⟨a, rfl, (List.append_assoc ..).symm⟩
  · rcases List.append_eq_append_iff.mp hc with ⟨a, rfl, rfl⟩ | ⟨c', hrest, hc'⟩
    · exact .inl ⟨a, by rw [List.append_assoc], rfl⟩
    · cases c' with
      | nil => exact .inl ⟨[], by simp [hrest], by simpa using hc'.symm⟩
      | cons s c' =>
        obtain ⟨rfl, -⟩ := List.cons.inj hc'
        exact (hforeign _ List.mem_cons_self _ hrest).elim

/-! ### Pieces -/

/-- The pieces of a text are made of its characters, and hold no separator. -/
theorem of_mem_splitOn {a : Char} {text piece : List Char} (h : piece ∈ text.splitOn a) :
    a ∉ piece ∧ ∀ c ∈ piece, c ∈ text := by
  induction text generalizing piece with
  | nil =>
    obtain rfl : piece = [] := by simpa using h
    simp
  | cons c text ih =>
    obtain ⟨first, others, hsplit⟩ := List.exists_cons_of_ne_nil (List.splitOn_ne_nil a text)
    have hmem : ∀ {piece : List Char}, piece ∈ first :: others → a ∉ piece ∧ ∀ d ∈ piece, d ∈ text := by
      intro piece hpiece
      rw [← hsplit] at hpiece
      exact ih hpiece
    have hothers : ∀ {piece : List Char}, piece ∈ first :: others → a ∉ piece ∧ ∀ d ∈ piece, d ∈ c :: text :=
      fun hpiece => ⟨(hmem hpiece).1, fun d hd => List.mem_cons_of_mem _ ((hmem hpiece).2 d hd)⟩
    rw [List.splitOn_cons_eq_if_modifyHead, hsplit] at h
    split at h
    · rcases List.mem_cons.mp h with rfl | h
      · simp
      · exact hothers h
    · rename_i hne
      rw [List.modifyHead_cons] at h
      rcases List.mem_cons.mp h with rfl | h
      · obtain ⟨hsep, hchars⟩ := hothers List.mem_cons_self
        refine ⟨?_, fun d hd => ?_⟩
        · simp only [List.mem_cons, not_or]
          exact ⟨fun heq => hne (by simp [heq]), hsep⟩
        · rcases List.mem_cons.mp hd with rfl | hd
          · exact List.mem_cons_self
          · exact hchars d hd
      · exact hothers (List.mem_cons_of_mem _ h)

end ManifestBump.Text

import ManifestBump.Proofs.Text.Cut

/-! Runs at the front of a list, found by halving.

Where no element passes a test behind one that fails it, the elements that pass are a run in front (`Partitioned.cut`),
and the end of the run can be looked for in either half of what is left (`partitionPoint_append`). -/
namespace ManifestBump.Text
variable {α : Type}

/-- The first place from `low` up to `high` that fails a test, looked for in the half that has it. -/
def bisect (p : Nat → Bool) (low high : Nat) : Nat :=
  if low < high then
    let middle := low + (high - low) / 2
    if p middle then bisect p (middle + 1) high else bisect p low middle
  else low
termination_by high - low

/-- **Halving finds the border** between the places that pass and the places that fail. -/
theorem bisect_eq {p : Nat → Bool} {low high border : Nat} (hlow : low ≤ border) (hhigh : border ≤ high)
    (h : ∀ n, low ≤ n → n < high → (p n = true ↔ n < border)) : bisect p low high = border := by
  fun_induction bisect p low high with
  | case1 low high hlt middle hpass ih =>
    have hborder := (h middle (by omega) (by omega)).mp hpass
    exact ih (by omega) hhigh fun n hn hn' => h n (by omega) hn'
  | case2 low high hlt middle hfail ih =>
    have hborder := mt (h middle (by omega) (by omega)).mpr hfail
    exact ih hlow (by omega) fun n hn hn' => h n hn (by omega)
  | case3 low high hle => omega

/-- How many elements a list has in front of the first one that fails a test, found by halving. -/
def partitionPoint (p : α → Bool) (l : List α) : Nat := bisect (fun n => l[n]?.any p) 0 l.length

variable {p : α → Bool}

/-- **Halving finds the end of a run.** -/
theorem partitionPoint_append {run rest : List α} (hrun : ∀ a ∈ run, p a = true) (hrest : ∀ a ∈ rest, p a = false) :
    partitionPoint p (run ++ rest) = run.length := by
  refine bisect_eq (Nat.zero_le _) (by simp) fun n _ hn => ?_
  rw [List.length_append] at hn
  by_cases hlt : n < run.length
  · rw [List.getElem?_append_left hlt, List.getElem?_eq_getElem hlt]
    simpa [hlt] using hrun _ (List.getElem_mem hlt)
  · have hbehind : n - run.length < rest.length := by omega
    rw [List.getElem?_append_right (by omega), List.getElem?_eq_getElem hbehind]
    simpa [hlt] using hrest _ (List.getElem_mem hbehind)

/-- No element passes behind one that fails. -/
def Partitioned (p : α → Bool) (l : List α) : Prop := l.Pairwise fun a b => p b = true → p a = true

/-- The elements that pass are a run in front. -/
theorem Partitioned.cut {l : List α} (h : Partitioned p l) :
    ∃ run rest, l = run ++ rest ∧ (∀ a ∈ run, p a = true) ∧ ∀ a ∈ rest, p a = false := by
  obtain ⟨run, rest, rfl, hrun, hstops⟩ := exists_cut p l
  refine ⟨run, rest, rfl, hrun, fun a ha => ?_⟩
  obtain ⟨-, hrest, -⟩ := List.pairwise_append.mp h
  cases rest with
  | nil => cases ha
  | cons b rest =>
    have hb : p b = false := stops_cons_iff.mp hstops
    rcases List.mem_cons.mp ha with rfl | ha
    · exact hb
    · by_contra hpass
      have := (List.pairwise_cons.mp hrest).1 a ha (by simpa using hpass)
      rw [hb] at this
      cases this

end ManifestBump.Text

import ManifestBump.Notation.Json.Value
import ManifestBump.Proofs.Document

/-! Documents read from JSON are ordered. -/
namespace ManifestBump.Notation.Json
open Document (Ordered ordered_tableOf)

/-- What is read in a number of steps is ordered. -/
structure ReadsOrdered (bound : Nat) : Prop where
  value {depth : Nat} {text rest : List Char} {d : Document} (h : valueWithin bound depth text = .ok (d, rest)) : Ordered d
  items {depth : Nat} {first : Bool} {text rest : List Char} {ds : List Document}
    (h : itemsWithin bound depth first text = .ok (ds, rest)) : ∀ d ∈ ds, Ordered d
  members {depth : Nat} {first : Bool} {text rest : List Char} {ms : List (String × Document)}
    (h : membersWithin bound depth first text = .ok (ms, rest)) : ∀ m ∈ ms, Ordered m.2

theorem ReadsOrdered.step_value {bound depth : Nat} (ih : ReadsOrdered bound) {text rest : List Char} {d : Document}
    (h : valueWithin (bound + 1) depth text = .ok (d, rest)) : Ordered d := by
  rw [valueWithin] at h
  split at h
  · cases h
  · obtain ⟨_, -, hd⟩ := exists_of_map_eq_ok h
    cases hd
    exact .null
  · obtain ⟨_, -, hd⟩ := exists_of_map_eq_ok h
    cases hd
    exact .bool true
  · obtain ⟨_, -, hd⟩ := exists_of_map_eq_ok h
    cases hd
    exact .bool false
  · obtain ⟨_, -, hd⟩ := exists_of_map_eq_ok h
    cases hd
    exact .text _
  · cases depth with
    | zero => cases h
    | succ depth =>
      obtain ⟨_, hitems, hd⟩ := exists_of_map_eq_ok h
      cases hd
      exact .list (ih.items hitems)
  · cases depth with
    | zero => cases h
    | succ depth =>
      obtain ⟨_, hmembers, hd⟩ := exists_of_map_eq_ok h
      cases hd
      exact ordered_tableOf (ih.members hmembers)
  · split at h
    · obtain ⟨_, -, hd⟩ := exists_of_map_eq_ok h
      cases hd
      exact .number
    · cases h

theorem ReadsOrdered.step_items {bound depth : Nat} (ih : ReadsOrdered bound) {first : Bool} {text rest : List Char}
    {ds : List Document} (h : itemsWithin (bound + 1) depth first text = .ok (ds, rest)) : ∀ d ∈ ds, Ordered d := by
  rw [itemsWithin] at h
  split at h
  · cases h
  · obtain ⟨_, -, hds⟩ := exists_of_map_eq_ok h
    cases hds
    exact List.forall_mem_nil _
  · split at h
    · cases h
    next d text hvalue =>
      obtain ⟨_, hitems, hds⟩ := exists_of_map_eq_ok h
      cases hds
      exact List.forall_mem_cons.mpr ⟨ih.value hvalue, ih.items hitems⟩

theorem ReadsOrdered.step_members {bound depth : Nat} (ih : ReadsOrdered bound) {first : Bool} {text rest : List Char}
    {ms : List (String × Document)} (h : membersWithin (bound + 1) depth first text = .ok (ms, rest)) :
    ∀ m ∈ ms, Ordered m.2 := by
  rw [membersWithin] at h
  split at h
  · cases h
  · cases h
    exact List.forall_mem_nil _
  · split at h
    · cases h
    · split at h
      · cases h
      next d text hvalue =>
        obtain ⟨_, hmembers, hms⟩ := exists_of_map_eq_ok h
        cases hms
        exact List.forall_mem_cons.mpr ⟨ih.value hvalue, ih.members hmembers⟩

theorem readsOrdered (bound : Nat) : ReadsOrdered bound := by
  induction bound with
  | zero => constructor <;> nofun
  | succ bound ih => exact ⟨ih.step_value, ih.step_items, ih.step_members⟩

/-- **A document read from JSON is ordered.** -/
theorem ordered_parse {text : List Char} {d : Document} (h : parse text = .ok d) : Ordered d := by
  rw [parse] at h
  obtain ⟨⟨d', rest⟩, hvalue, h⟩ := bind_eq_ok_iff.mp h
  dsimp only at h
  split at h
  · cases h
    exact (readsOrdered _).value hvalue
  · cases h

end ManifestBump.Notation.Json

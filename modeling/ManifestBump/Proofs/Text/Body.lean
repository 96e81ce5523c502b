import ManifestBump.Text.Basic

/-! What stands between the quotes of a string.

A backslash hides the character behind it, and a string ends at the first character that can end it and is not hidden
(`Body.unique`). -/
namespace ManifestBump.Text

/-- A text in which no character that can end a string stands, unless a backslash hides it. -/
inductive Body (isEnd : Char → Bool) : List Char → Prop where
  | nil : Body isEnd []
  | plain {c : Char} {rest : List Char} (hend : isEnd c = false) (hslash : c ≠ '\\') (h : Body isEnd rest) :
      Body isEnd (c :: rest)
  | hidden (c : Char) {rest : List Char} (h : Body isEnd rest) : Body isEnd ('\\' :: c :: rest)

variable {isEnd : Char → Bool} {x y : List Char}

theorem Body.append (hx : Body isEnd x) (hy : Body isEnd y) : Body isEnd (x ++ y) := by
  induction hx with
  | nil => exact hy
  | plain hend hslash _ ih => exact .plain hend hslash ih
  | hidden c _ ih => exact .hidden c ih

theorem Body.of_forall (h : ∀ c ∈ x, isEnd c = false ∧ c ≠ '\\') : Body isEnd x := by
  induction x with
  | nil => exact .nil
  | cons c x ih =>
    obtain ⟨hend, hslash⟩ := h c List.mem_cons_self
    exact .plain hend hslash (ih fun d hd => h d (List.mem_cons_of_mem _ hd))

/-- **A string ends in one place only.** -/
theorem Body.unique (hslash : isEnd '\\' = false) {c d : Char} {u v : List Char} (hx : Body isEnd x)
    (hy : Body isEnd y) (hc : isEnd c = true) (hd : isEnd d = true) (h : x ++ c :: u = y ++ d :: v) :
    x = y ∧ c = d ∧ u = v := by
  have hne : ∀ {c}, isEnd c = true → c ≠ '\\' := by
    rintro c hc rfl
    rw [hslash] at hc
    cases hc
  induction hx generalizing y with
  | nil =>
    cases hy with
    | nil => simpa using h
    | plain hend _ _ =>
      obtain ⟨rfl, -⟩ := List.cons.inj h
      rw [hend] at hc
      cases hc
    | hidden e _ => exact absurd (List.cons.inj h).1 (hne hc)
  | plain hend hshow _ ih =>
    cases hy with
    | nil =>
      obtain ⟨rfl, -⟩ := List.cons.inj h
      rw [hend] at hd
      cases hd
    | plain _ _ hy =>
      obtain ⟨rfl, htail⟩ := List.cons.inj h
      obtain ⟨rfl, hrest⟩ := ih hy htail
      exact ⟨rfl, hrest⟩
    | hidden e _ => exact absurd (List.cons.inj h).1 hshow
  | hidden e _ ih =>
    cases hy with
    | nil => exact absurd (List.cons.inj h).1.symm (hne hd)
    | plain _ hshow _ => exact absurd (List.cons.inj h).1.symm hshow
    | hidden e' hy =>
      obtain ⟨rfl, htail⟩ := List.cons.inj (List.cons.inj h).2
      obtain ⟨rfl, hrest⟩ := ih hy htail
      exact ⟨rfl, hrest⟩

end ManifestBump.Text

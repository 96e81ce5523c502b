import Mathlib
import ManifestBump.Text.Search

/-! What a search finds.

An attempt may pass over places besides its own. As long as no answer stands at a place that is
passed over, a search finds the answer at the first place that has one
(`search_eq_firstAnswer`), and all that follows speaks of places and answers only. -/
namespace ManifestBump.Text
variable {α : Type}

/-- The answer an attempt comes to, if any. -/
def Attempt.answer? : Attempt α → Option α
  | .found answer => some answer
  | .pass _ => none

@[simp] theorem Attempt.answer?_pass (skip : Nat) : (Attempt.pass skip : Attempt α).answer? = none := rfl

/-- The answer at the first place from `start` up to `stop`, both included, that has one. -/
def firstAnswer (f : Nat → Option α) (start stop : Nat) : Option α :=
  (List.range' start (stop + 1 - start)).findSome? f

/-! ### First answers -/

theorem firstAnswer_eq_none_iff {f : Nat → Option α} {start stop : Nat} :
    firstAnswer f start stop = none ↔ ∀ n, start ≤ n → n ≤ stop → f n = none := by
  simp only [firstAnswer, List.findSome?_eq_none_iff, List.mem_range'_1]
  constructor
  · intro h n hs he
    exact h n ⟨hs, by omega⟩
  · intro h n hn
    exact h n hn.1 (by omega)

/-- The place in front is looked at first. -/
theorem firstAnswer_step (f : Nat → Option α) {start stop : Nat} (hle : start ≤ stop) :
    firstAnswer f start stop = (f start).or (firstAnswer f (start + 1) stop) := by
  unfold firstAnswer
  rw [show stop + 1 - start = (stop + 1 - (start + 1)) + 1 by omega, List.range'_succ,
    List.findSome?_cons]
  cases f start <;> rfl

/-- Places without an answer can be left out in front. -/
theorem firstAnswer_skip {f : Nat → Option α} {start stop m : Nat} (hm : start ≤ m)
    (h : ∀ n, start ≤ n → n < m → f n = none) : firstAnswer f start stop = firstAnswer f m stop := by
  induction m, hm using Nat.le_induction with
  | base => rfl
  | succ m hm ih =>
    rw [ih fun n hs hn => h n hs (by omega)]
    by_cases hstop : m ≤ stop
    · rw [firstAnswer_step f hstop, h m hm (by omega), Option.none_or]
    · unfold firstAnswer
      rw [show stop + 1 - m = 0 by omega, show stop + 1 - (m + 1) = 0 by omega]
      rfl

theorem firstAnswer_of_self {f : Nat → Option α} {start stop : Nat} {answer : α}
    (h : f start = some answer) (hle : start ≤ stop) : firstAnswer f start stop = some answer := by
  rw [firstAnswer_step f hle, h, Option.some_or]

theorem firstAnswer_eq_some_iff {f : Nat → Option α} {start stop : Nat} {answer : α} :
    firstAnswer f start stop = some answer ↔
      ∃ n, start ≤ n ∧ n ≤ stop ∧ f n = some answer ∧ ∀ m, start ≤ m → m < n → f m = none := by
  constructor
  · intro h
    have hne : ∃ n, start ≤ n ∧ n ≤ stop ∧ f n ≠ none := by
      by_contra hall
      rw [firstAnswer_eq_none_iff.mpr] at h
      · cases h
      · intro n hs he
        by_contra hn
        exact hall ⟨n, hs, he, hn⟩
    obtain ⟨hs, he, hn⟩ := Nat.find_spec hne
    have hmin : ∀ m, start ≤ m → m < Nat.find hne → f m = none := by
      intro m hm hlt
      by_contra hf
      exact Nat.find_min hne hlt ⟨hm, by omega, hf⟩
    refine ⟨Nat.find hne, hs, he, ?_, hmin⟩
    rw [firstAnswer_skip hs hmin] at h
    obtain ⟨found, hfound⟩ := Option.ne_none_iff_exists'.mp hn
    rw [firstAnswer_of_self hfound he] at h
    rw [hfound, h]
  · intro h
    obtain ⟨n, hs, he, hn, hmin⟩ := h
    rw [firstAnswer_skip hs hmin, firstAnswer_of_self hn he]

theorem firstAnswer_congr {f g : Nat → Option α} {start stop : Nat}
    (h : ∀ n, start ≤ n → n ≤ stop → f n = g n) : firstAnswer f start stop = firstAnswer g start stop := by
  cases hg : firstAnswer g start stop with
  | none =>
    rw [firstAnswer_eq_none_iff] at hg ⊢
    intro n hs he
    rw [h n hs he, hg n hs he]
  | some answer =>
    rw [firstAnswer_eq_some_iff] at hg ⊢
    obtain ⟨n, hs, he, hn, hmin⟩ := hg
    exact ⟨n, hs, he, by rw [h n hs he, hn], fun m hm hlt => by rw [h m hm (by omega), hmin m hm hlt]⟩

/-! ### Searches -/

/-- What is found is found at some place. -/
theorem exists_of_searchFrom {attempt : Cursor → Attempt α} {text : List Char} {answer : α}
    (before rest : List Char) (htext : text = before ++ rest) {skip : Nat}
    (h : searchFrom attempt skip before.length before.getLast? rest = some answer) :
    ∃ n, before.length ≤ n ∧ attempt (Cursor.at text n) = .found answer := by
  have hat : Cursor.at text before.length = ⟨before.length, before.getLast?, rest⟩ := by
    rw [htext, Cursor.at, List.take_left, List.drop_left]
  induction rest generalizing before skip with
  | nil =>
    rw [searchFrom] at h
    split at h
    · split at h
      · rename_i hfound
        cases h
        exact ⟨_, le_rfl, by rw [hat, hfound]⟩
      · cases h
    · cases h
  | cons c rest ih =>
    have hnext : ∀ {skip}, searchFrom attempt skip (before.length + 1) (some c) rest = some answer →
        ∃ n, before.length ≤ n ∧ attempt (Cursor.at text n) = .found answer := by
      intro skip h
      have htext' : text = (before ++ [c]) ++ rest := by rw [htext, List.append_assoc, List.singleton_append]
      have h' : searchFrom attempt skip (before ++ [c]).length (before ++ [c]).getLast? rest = some answer := by
        simpa using h
      obtain ⟨n, hn, hfound⟩ := ih (before ++ [c]) htext' h' (by rw [htext', Cursor.at, List.take_left, List.drop_left])
      rw [List.length_append] at hn
      exact ⟨n, by omega, hfound⟩
    cases skip with
    | succ skip => exact hnext h
    | zero =>
      rw [searchFrom] at h
      split at h
      · rename_i hfound
        cases h
        exact ⟨_, le_rfl, by rw [hat, hfound]⟩
      · exact hnext h

theorem exists_of_search {attempt : Cursor → Attempt α} {text : List Char} {offset : Nat} {answer : α}
    (h : search attempt text offset = some answer) :
    ∃ n, offset ≤ n ∧ attempt (Cursor.at text n) = .found answer := by
  by_cases hle : offset ≤ text.length
  · have hlen : (text.take offset).length = offset := List.length_take_of_le hle
    have h' : searchFrom attempt 0 (text.take offset).length (text.take offset).getLast? (text.drop offset) =
        some answer := by
      rwa [hlen]
    obtain ⟨n, hn, hfound⟩ := exists_of_searchFrom _ _ (List.take_append_drop offset text).symm h'
    exact ⟨n, by omega, hfound⟩
  · refine ⟨offset, le_rfl, ?_⟩
    have hrest : (Cursor.at text offset).rest = [] := List.drop_eq_nil_of_le (by omega)
    simp only [search, hrest, searchFrom, if_true] at h
    split at h
    · rename_i hfound
      cases h
      rw [← hfound, ← hrest]
    · cases h

theorem Cursor.at_of_length_le {text : List Char} {n : Nat} (h : text.length ≤ n) :
    (Cursor.at text n).rest = [] := by
  simp [Cursor.at, h]

/-- No answer stands at the end of the text, and none where an attempt passes over. -/
structure Thorough (attempt : Cursor → Attempt α) (text : List Char) : Prop where
  atEnd : ∀ cursor, cursor.rest = [] → (attempt cursor).answer? = none
  passed : ∀ n skip m, attempt (Cursor.at text n) = .pass skip → n < m → m ≤ n + skip →
    (attempt (Cursor.at text m)).answer? = none

/-- The search from a place in the middle, with `skip` places still to be passed over. -/
theorem searchFrom_eq_firstAnswer {attempt : Cursor → Attempt α} {text : List Char}
    (h : Thorough attempt text) (before rest : List Char) (htext : text = before ++ rest)
    (skip : Nat) (hskip : ∀ m, before.length ≤ m → m < before.length + skip →
      (attempt (Cursor.at text m)).answer? = none) :
    searchFrom attempt skip before.length before.getLast? rest =
      firstAnswer (fun n => (attempt (Cursor.at text n)).answer?) before.length text.length := by
  induction rest generalizing before skip with
  | nil =>
    have hend : (attempt ⟨before.length, before.getLast?, []⟩).answer? = none := h.atEnd _ rfl
    have hnone : firstAnswer (fun n => (attempt (Cursor.at text n)).answer?) before.length
        text.length = none := by
      rw [firstAnswer_eq_none_iff]
      intro n hn _
      exact h.atEnd _ (Cursor.at_of_length_le (by rw [htext]; simpa using hn))
    rw [hnone, searchFrom]
    split
    · cases hat : attempt ⟨before.length, before.getLast?, []⟩ with
      | found answer => rw [hat] at hend; cases hend
      | pass _ => rfl
    · rfl
  | cons c rest ih =>
    have hat : Cursor.at text before.length = ⟨before.length, before.getLast?, c :: rest⟩ := by
      rw [htext, Cursor.at, List.take_left, List.drop_left]
    have hle : before.length ≤ text.length := by rw [htext]; simp
    have hnext : ∀ skip, (∀ m, before.length + 1 ≤ m → m < before.length + 1 + skip →
        (attempt (Cursor.at text m)).answer? = none) →
        searchFrom attempt skip (before.length + 1) (some c) rest =
          firstAnswer (fun n => (attempt (Cursor.at text n)).answer?) (before.length + 1) text.length := by
      intro skip hskip
      have := ih (before ++ [c]) (by rw [htext]; simp) skip (by simpa using hskip)
      simpa using this
    rw [firstAnswer_step _ hle]
    cases skip with
    | succ skip =>
      rw [hskip before.length (by omega) (by omega), Option.none_or]
      exact hnext skip fun m hm hlt => hskip m (by omega) (by omega)
    | zero =>
      rw [searchFrom, ← hat]
      cases hatt : attempt (Cursor.at text before.length) with
      | found answer => rfl
      | pass skip =>
        rw [Attempt.answer?_pass, Option.none_or]
        exact hnext skip fun m hm hlt => h.passed _ _ m hatt (by omega) (by omega)

/-- **A search finds the first answer.** -/
theorem search_eq_firstAnswer {attempt : Cursor → Attempt α} {text : List Char}
    (h : Thorough attempt text) (offset : Nat) :
    search attempt text offset =
      firstAnswer (fun n => (attempt (Cursor.at text n)).answer?) offset text.length := by
  by_cases hle : offset ≤ text.length
  · have hlen : (text.take offset).length = offset := by simp [hle]
    have := searchFrom_eq_firstAnswer h (text.take offset) (text.drop offset) (by simp) 0
      (fun m _ _ => by omega)
    rw [hlen] at this
    exact this
  · have hrest : (Cursor.at text offset).rest = [] := Cursor.at_of_length_le (by omega)
    have hnone : firstAnswer (fun n => (attempt (Cursor.at text n)).answer?) offset text.length
        = none := by
      rw [firstAnswer_eq_none_iff]
      intro n _ _
      omega
    have hend := h.atEnd _ hrest
    simp only [search, hrest, searchFrom, if_true, hnone]
    generalize hat : attempt ⟨(Cursor.at text offset).offset, (Cursor.at text offset).last, []⟩ = a
    cases a with
    | found answer =>
      rw [← hrest] at hat
      rw [hat] at hend
      cases hend
    | pass _ => rfl

/-- The same for a search that looks only at the text up to `stop`. -/
theorem search_take_eq_firstAnswer {attempt : Cursor → Attempt α} {text : List Char} {stop : Nat}
    (h : Thorough attempt (text.take stop)) (offset : Nat) :
    search attempt (text.take stop) offset =
      firstAnswer (fun n => (attempt (Cursor.at (text.take stop) n)).answer?) offset stop := by
  have hend : ∀ n, (text.take stop).length ≤ n →
      (attempt (Cursor.at (text.take stop) n)).answer? = none :=
    fun n hn => h.atEnd _ (Cursor.at_of_length_le hn)
  rw [search_eq_firstAnswer h]
  cases hfound : firstAnswer (fun n => (attempt (Cursor.at (text.take stop) n)).answer?) offset stop with
  | none =>
    rw [firstAnswer_eq_none_iff] at hfound ⊢
    intro n hs he
    exact hfound n hs (he.trans (List.length_take_le _ _))
  | some answer =>
    rw [firstAnswer_eq_some_iff] at hfound ⊢
    obtain ⟨n, hs, he, hn, hmin⟩ := hfound
    refine ⟨n, hs, ?_, hn, hmin⟩
    by_contra hlt
    rw [hend n (by omega)] at hn
    cases hn

end ManifestBump.Text

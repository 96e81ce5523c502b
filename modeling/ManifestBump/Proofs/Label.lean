import Mathlib.Data.List.Perm.Basic
import ManifestBump.Label

/-! Which labels decide.

A version label is a label with one of the names that are set. Only these count: how many there are tells what a
decision comes to, and of a single one, which it is (`decide_of_filter`). So no other label matters, nor the order of
labels (`decide_counts`). -/
namespace ManifestBump.LabelSet
variable {set : LabelSet} {labels others : List String}

/-! ### Version labels -/

/-- Whether a label is a version label. -/
def isName (set : LabelSet) (label : String) : Bool := set.names.contains label

/-- The version labels are those that select a level. -/
theorem isSome_levelOf? (set : LabelSet) (label : String) : (set.levelOf? label).isSome = set.isName label := by
  simp only [levelOf?, isName, names, List.contains_cons, List.contains_nil]
  repeat' split
  all_goals simp_all

/-- The label of a level that no lower level has as well. -/
def Selects (set : LabelSet) (label : String) : Level → Prop
  | .patch => label = set.patch
  | .minor => label = set.minor ∧ label ≠ set.patch
  | .major => label = set.major ∧ label ≠ set.minor ∧ label ≠ set.patch

theorem levelOf?_eq_some_iff {label : String} {level : Level} :
    set.levelOf? label = some level ↔ set.Selects label level := by
  simp only [levelOf?]
  cases level <;> grind [Selects]

/-- A label selects one level. -/
theorem Selects.unique {label : String} {level level' : Level} (h : set.Selects label level)
    (h' : set.Selects label level') : level = level' :=
  Option.some.inj ((levelOf?_eq_some_iff.mpr h).symm.trans (levelOf?_eq_some_iff.mpr h'))

/-- What is found are the version labels, in the order of the labels. -/
theorem found_map_fst (set : LabelSet) (labels : List String) :
    (set.found labels).map Prod.fst = labels.filter set.isName := by
  induction labels with
  | nil => rfl
  | cons label labels ih =>
    have hsome := set.isSome_levelOf? label
    simp only [found] at ih ⊢
    cases hlevel : set.levelOf? label with
    | none =>
      rw [hlevel] at hsome
      rw [List.filterMap_cons_none (by rw [hlevel]; rfl), List.filter_cons_of_neg (by simp [← hsome]), ih]
    | some level =>
      rw [hlevel] at hsome
      rw [List.filterMap_cons_some (by rw [hlevel]; rfl), List.filter_cons_of_pos hsome.symm, List.map_cons, ih]

/-- Each of them is found with the level it selects. -/
theorem selects_of_mem_found {label : String} {level : Level} (h : (label, level) ∈ set.found labels) :
    set.Selects label level := by
  obtain ⟨_, -, hmap⟩ := List.mem_filterMap.mp h
  obtain ⟨_, hlevel, heq⟩ := Option.map_eq_some_iff.mp hmap
  cases heq
  exact levelOf?_eq_some_iff.mp hlevel

/-! ### Decisions -/

/-- What is decided when some labels are the version labels. -/
inductive Decides (set : LabelSet) : (found : List String) → Except LabelError Level → Prop where
  | missing : Decides set [] (.error (.missing set.names))
  | chosen {label : String} {level : Level} (h : set.Selects label level) : Decides set [label] (.ok level)
  | multiple {found : List String} (h : 1 < found.length) : Decides set found (.error (.multiple found))

/-- **The version labels decide.** -/
theorem decide_of_filter (set : LabelSet) (labels : List String) :
    set.Decides (labels.filter set.isName) (set.decide labels) := by
  rw [← found_map_fst, decide]
  match hfound : set.found labels with
  | [] => exact .missing
  | [(label, level)] =>
    have hmem : (label, level) ∈ set.found labels := by
      rw [hfound]
      exact List.mem_singleton_self _
    exact .chosen (selects_of_mem_found hmem)
  | first :: second :: rest => exact .multiple (by simp)

section Decides
variable {found : List String} {answer : Except LabelError Level} (h : set.Decides found answer)
include h

theorem Decides.eq_ok_iff {level : Level} :
    answer = .ok level ↔ ∃ label, found = [label] ∧ set.Selects label level := by
  cases h with
  | missing => simp
  | @chosen label level' h =>
    constructor
    · rintro ⟨⟩
      exact ⟨label, rfl, h⟩
    · rintro ⟨_, ⟨⟩, h'⟩
      rw [h.unique h']
  | multiple hmany =>
    have hne : ∀ label, found ≠ [label] := by
      rintro label rfl
      simp at hmany
    simp [hne]

theorem Decides.exists_ok_iff : (∃ level, answer = .ok level) ↔ found.length = 1 := by
  cases h with
  | missing => simp
  | chosen h => simp
  | multiple hmany =>
    have hne : found.length ≠ 1 := by omega
    simpa using hne

theorem Decides.eq_missing_iff : answer = .error (.missing set.names) ↔ found.length = 0 := by
  cases h with
  | missing => simp
  | chosen h => simp
  | multiple hmany =>
    have hne : found.length ≠ 0 := by omega
    simpa using hne

theorem Decides.eq_multiple_iff : answer = .error (.multiple found) ↔ 1 < found.length := by
  cases h with
  | missing => simp
  | chosen h => simp
  | multiple hmany => simpa using hmany

end Decides

/-- What a decision comes to, whatever labels it names. -/
inductive Verdict where
  | chosen (level : Level)
  | missing
  | multiple
deriving DecidableEq, Repr

/-- The verdict of an answer. -/
def Verdict.ofAnswer : Except LabelError Level → Verdict
  | .ok level => .chosen level
  | .error (.missing _) => .missing
  | .error (.multiple _) => .multiple

/-- The verdict on some labels. -/
def verdict (set : LabelSet) (labels : List String) : Verdict := .ofAnswer (set.decide labels)

/-- The same version labels in another order lead to the same verdict. -/
theorem Decides.verdict_eq {found found' : List String} {answer answer' : Except LabelError Level}
    (h : set.Decides found answer) (h' : set.Decides found' answer') (hperm : found.Perm found') :
    Verdict.ofAnswer answer' = Verdict.ofAnswer answer := by
  have hlen := hperm.length_eq
  cases h with
  | missing =>
    cases List.nil_perm.mp hperm
    cases h' with
    | missing => rfl
    | multiple hmany => cases hmany
  | chosen hlevel =>
    cases List.singleton_perm.mp hperm
    cases h' with
    | chosen hlevel' =>
      rw [hlevel.unique hlevel']
    | multiple hmany => simp at hmany
  | multiple hmany =>
    rw [hlen] at hmany
    cases h' with
    | multiple => rfl
    | missing | chosen => simp at hmany

/-! ### Labels that do not count -/

/-- Labels moved about, with labels that are no version labels put in and taken out. -/
inductive Rearranged (set : LabelSet) : List String → List String → Prop where
  | moved {labels others : List String} (h : labels.Perm others) : Rearranged set labels others
  | added (front back : List String) {label : String} (h : label ∉ set.names) :
    Rearranged set (front ++ back) (front ++ label :: back)
  | removed (front back : List String) {label : String} (h : label ∉ set.names) :
    Rearranged set (front ++ label :: back) (front ++ back)
  | trans {labels between others : List String} (h : Rearranged set labels between)
    (h' : Rearranged set between others) : Rearranged set labels others

theorem filter_other {label : String} (h : label ∉ set.names) (front back : List String) :
    (front ++ label :: back).filter set.isName = (front ++ back).filter set.isName := by
  have hname : set.isName label = false := by simpa [isName] using h
  rw [List.filter_append, List.filter_cons_of_neg (by simp [hname]), ← List.filter_append]

/-- Version labels are neither put in nor taken out. -/
theorem Rearranged.perm (h : set.Rearranged labels others) :
    (labels.filter set.isName).Perm (others.filter set.isName) := by
  induction h with
  | moved h => exact h.filter _
  | added front back h => rw [filter_other h]
  | removed front back h => rw [filter_other h]
  | trans _ _ ih ih' => exact ih.trans ih'

/-- **One version label decides for its level, none and several decide for nothing**, wherever they stand and among
whatever other labels. -/
theorem decide_counts (set : LabelSet) (labels : List String) :
    ((∃ level, set.decide labels = .ok level) ↔ labels.countP set.isName = 1) ∧
      (∀ level, set.decide labels = .ok level ↔
        ∃ label, labels.filter set.isName = [label] ∧ set.Selects label level) ∧
      (set.decide labels = .error (.missing set.names) ↔ labels.countP set.isName = 0) ∧
      (set.decide labels = .error (.multiple (labels.filter set.isName)) ↔ 1 < labels.countP set.isName) ∧
      ∀ others, set.Rearranged labels others → set.verdict others = set.verdict labels := by
  have hdecides := set.decide_of_filter labels
  rw [List.countP_eq_length_filter]
  exact ⟨hdecides.exists_ok_iff, fun level => hdecides.eq_ok_iff, hdecides.eq_missing_iff, hdecides.eq_multiple_iff,
    fun others h => hdecides.verdict_eq (set.decide_of_filter others) h.perm⟩

example : decide ⟨"fix", "fix", "break"⟩ ["docs", "fix", "bug"] = .ok .patch ∧
    decide ⟨"fix", "fix", "break"⟩ ["fix", "docs", "break", "fix"] = .error (.multiple ["fix", "break", "fix"]) := by
  decide

end ManifestBump.LabelSet

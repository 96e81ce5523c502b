import ManifestBump.Document
import ManifestBump.Proofs.Except
import Mathlib.Order.Basic
import Mathlib.Data.String.Basic

/-! Documents over each other.

The tables of a document are ordered if their keys are strictly increasing, at every level (`Ordered`). Tables that are
put together, and documents over each other, stay so. In ordered tables every key comes once, so what a united table has
at a key is told by what the two tables have there (`member?_mergeMembers`). -/
namespace ManifestBump

namespace Document

variable {members lower upper : List (String × Document)} {key : String} {value d : Document}

/-! ### Members -/

theorem member?_cons (m : String × Document) (members : List (String × Document)) (key : String) :
    member? (m :: members) key = if key = m.1 then some m.2 else member? members key := by
  by_cases h : key = m.1
  · rw [member?, List.lookup_cons, if_pos h, h, beq_self_eq_true]
  · rw [member?, List.lookup_cons, if_neg h, beq_false_of_ne h]
    rfl

/-- A member that is put in changes nothing at other keys, whatever the order of the others. -/
theorem member?_insertMember (key : String) (value : Document) (members : List (String × Document)) (other : String) :
    member? (insertMember key value members) other = if other = key then some value else member? members other := by
  induction members with
  | nil => rw [insertMember, member?_cons]
  | cons m members ih =>
    obtain ⟨k, v⟩ := m
    rw [insertMember]
    by_cases hlt : key < k
    · rw [if_pos hlt, member?_cons]
    by_cases heq : key = k
    · subst heq
      rw [if_neg hlt, if_pos rfl, member?_cons, member?_cons]
      by_cases hother : other = key <;> simp [hother]
    · rw [if_neg hlt, if_neg heq, member?_cons, member?_cons, ih]
      by_cases hother : other = k
      · have hkey : other ≠ key := fun h => heq (h.symm.trans hother)
        simp [hother, Ne.symm heq]
      · simp [hother]

theorem member?_filter (p : String → Bool) (members : List (String × Document)) (key : String) :
    member? (members.filter fun m => p m.1) key = if p key then member? members key else none := by
  induction members with
  | nil => simp [member?]
  | cons m members ih =>
    rw [List.filter_cons, member?_cons]
    by_cases heq : key = m.1
    · subst heq
      cases hp : p m.1 with
      | true => rw [if_pos rfl, if_pos rfl, if_pos rfl, member?_cons, if_pos rfl]
      | false => rw [if_neg Bool.false_ne_true, if_neg Bool.false_ne_true, ih, hp, if_neg Bool.false_ne_true]
    · rw [if_neg heq, ← ih]
      split
      · rw [member?_cons, if_neg heq]
      · rfl

theorem mem_of_lookup {β : Type} {entries : List (String × β)} {b : β} (h : entries.lookup key = some b) :
    (key, b) ∈ entries := by
  obtain ⟨front, behind, rfl, -⟩ := List.lookup_eq_some_iff.mp h
  exact List.mem_append_right front List.mem_cons_self

theorem mem_of_mem_insertMember {m : String × Document} (h : m ∈ insertMember key value members) :
    m = (key, value) ∨ m ∈ members := by
  induction members with
  | nil => exact .inl (List.mem_singleton.mp h)
  | cons m' members ih =>
    obtain ⟨k, v⟩ := m'
    rw [insertMember] at h
    split at h
    · exact List.mem_cons.mp h
    split at h
    next heq =>
      subst heq
      rcases List.mem_cons.mp h with rfl | h
      · exact .inl rfl
      · exact .inr (List.mem_cons_of_mem _ h)
    · rcases List.mem_cons.mp h with rfl | h
      · exact .inr List.mem_cons_self
      · exact (ih h).imp id (List.mem_cons_of_mem _)

/-! ### Order -/

/-- Members in order of their keys, none of which comes twice. -/
def Sorted (members : List (String × Document)) : Prop := members.Pairwise fun m m' => m.1 < m'.1

theorem Sorted.insertMember (h : Sorted members) (key : String) (value : Document) :
    Sorted (insertMember key value members) := by
  induction members with
  | nil => exact List.pairwise_singleton _ _
  | cons m members ih =>
    obtain ⟨k, v⟩ := m
    have hcons := List.pairwise_cons.mp h
    rw [Document.insertMember]
    by_cases hlt : key < k
    · rw [if_pos hlt]
      refine List.pairwise_cons.mpr ⟨fun m hm => ?_, h⟩
      rcases List.mem_cons.mp hm with rfl | hm
      · exact hlt
      · exact lt_trans hlt (hcons.1 m hm)
    by_cases heq : key = k
    · rw [if_neg hlt, if_pos heq]
      exact List.pairwise_cons.mpr hcons
    · rw [if_neg hlt, if_neg heq]
      refine List.pairwise_cons.mpr ⟨fun m hm => ?_, ih hcons.2⟩
      rcases mem_of_mem_insertMember hm with rfl | hm
      · exact lt_of_le_of_ne (not_lt.mp hlt) (Ne.symm heq)
      · exact hcons.1 m hm

/-- A member of a sorted table is what the table has at its key. -/
theorem Sorted.member?_eq (h : Sorted members) {m : String × Document} (hm : m ∈ members) :
    member? members m.1 = some m.2 := by
  induction members with
  | nil => cases hm
  | cons m' members ih =>
    have hcons := List.pairwise_cons.mp h
    rw [member?_cons]
    rcases List.mem_cons.mp hm with rfl | hm
    · rw [if_pos rfl]
    · rw [if_neg (ne_of_gt (hcons.1 m hm)), ih hcons.2 hm]

theorem member?_of_lt (h : ∀ m ∈ members, key < m.1) : member? members key = none := by
  cases hm : member? members key with
  | none => rfl
  | some d => exact absurd (h _ (mem_of_lookup hm)) (lt_irrefl key)

/-- All tables are sorted, at every level. -/
inductive Ordered : Document → Prop where
  | null : Ordered .null
  | bool (b : Bool) : Ordered (.bool b)
  | number : Ordered .number
  | text (s : String) : Ordered (.text s)
  | list {items : List Document} (h : ∀ d ∈ items, Ordered d) : Ordered (.list items)
  | table {members : List (String × Document)} (hsorted : Sorted members) (h : ∀ m ∈ members, Ordered m.2) :
      Ordered (.table members)

theorem Ordered.sorted (h : Ordered (.table members)) : Sorted members := by
  cases h with
  | table hsorted _ => exact hsorted

theorem Ordered.of_mem (h : Ordered (.table members)) {m : String × Document} (hm : m ∈ members) : Ordered m.2 := by
  cases h with
  | table _ h => exact h m hm

theorem Ordered.of_member? (h : Ordered (.table members)) (hd : member? members key = some d) : Ordered d :=
  h.of_mem (mem_of_lookup hd)

theorem Ordered.insertMember (h : Ordered (.table members)) (hvalue : Ordered value) (key : String) :
    Ordered (.table (insertMember key value members)) := by
  refine .table (h.sorted.insertMember key value) fun m hm => ?_
  rcases mem_of_mem_insertMember hm with rfl | hm
  · exact hvalue
  · exact h.of_mem hm

theorem ordered_empty : Ordered (.table []) := .table .nil (List.forall_mem_nil _)

theorem ordered_single (key : String) (h : Ordered d) : Ordered (.table [(key, d)]) :=
  ordered_empty.insertMember h key

/-- A table is ordered, whatever the order its members come in. -/
theorem ordered_tableOf (h : ∀ m ∈ members, Ordered m.2) : Ordered (tableOf members) := by
  suffices hfold : ∀ acc, Ordered (.table acc) →
      Ordered (.table (members.foldl (fun acc m => Document.insertMember m.1 m.2 acc) acc)) from
    hfold [] ordered_empty
  induction members with
  | nil => exact fun acc hacc => hacc
  | cons m members ih =>
    intro acc hacc
    exact ih (fun m' hm' => h m' (List.mem_cons_of_mem m hm')) _ (hacc.insertMember (h m List.mem_cons_self) m.1)

/-! ### One over the other -/

/-- What two documents at one place say together, if each of them may be missing. -/
def unite : (lower upper : Option Document) → Option Document
  | lower, none => lower
  | none, some upper => some upper
  | some lower, some upper => some (merge lower upper)

theorem mergeMembers_cons (m : String × Document) (lower upper : List (String × Document)) :
    ∃ merged, unite (member? lower m.1) (some m.2) = some merged ∧
      mergeMembers lower (m :: upper) = mergeMembers (insertMember m.1 merged lower) upper := by
  obtain ⟨key, value⟩ := m
  rw [mergeMembers]
  cases member? lower key with
  | none => exact ⟨value, rfl, rfl⟩
  | some below => exact ⟨merge below value, rfl, rfl⟩

/-- **At each key, united tables have what the tables say together.** -/
theorem member?_mergeMembers (h : Sorted upper) (lower : List (String × Document)) (key : String) :
    member? (mergeMembers lower upper) key = unite (member? lower key) (member? upper key) := by
  induction upper generalizing lower with
  | nil => rfl
  | cons m upper ih =>
    obtain ⟨merged, hmerged, hmerge⟩ := mergeMembers_cons m lower upper
    have hcons := List.pairwise_cons.mp h
    rw [hmerge, ih hcons.2, member?_insertMember, member?_cons]
    by_cases hkey : key = m.1
    · rw [if_pos hkey, if_pos hkey, hkey, member?_of_lt hcons.1, hmerged]
      rfl
    · rw [if_neg hkey, if_neg hkey]

theorem ordered_unite {lower : Option Document} {upper merged : Document} (hupper : Ordered upper)
    (hmerge : ∀ d, lower = some d → Ordered (merge d upper)) (h : unite lower (some upper) = some merged) :
    Ordered merged := by
  cases lower with
  | none => exact Option.some.inj h ▸ hupper
  | some d => exact Option.some.inj h ▸ hmerge d rfl

theorem Ordered.mergeMembers (hlower : Ordered (.table lower)) (hupper : ∀ m ∈ upper, Ordered m.2)
    (hmerge : ∀ m ∈ upper, ∀ d, Ordered d → Ordered (merge d m.2)) : Ordered (.table (mergeMembers lower upper)) := by
  induction upper generalizing lower with
  | nil => exact hlower
  | cons m upper ih =>
    obtain ⟨merged, hmerged, heq⟩ := mergeMembers_cons m lower upper
    have hordered : Ordered merged := ordered_unite (hupper m List.mem_cons_self)
      (fun d hd => hmerge m List.mem_cons_self d (hlower.of_member? hd)) hmerged
    rw [heq]
    exact ih (hlower.insertMember hordered m.1) (fun m' hm' => hupper m' (List.mem_cons_of_mem m hm'))
      (fun m' hm' => hmerge m' (List.mem_cons_of_mem m hm'))

/-- **Ordered documents over each other are ordered.** -/
theorem Ordered.merge {lower upper : Document} (hlower : Ordered lower) (hupper : Ordered upper) :
    Ordered (merge lower upper) := by
  induction hupper generalizing lower with
  | table hsorted h ih =>
    cases hlower with
    | table hsorted' h' =>
      rw [Document.merge]
      exact (Ordered.table hsorted' h').mergeMembers h fun m hm d hd => ih m hm hd
    | _ => exact .table hsorted h
  | list h _ => cases hlower <;> exact .list h
  | null => cases hlower <;> exact .null
  | bool b => cases hlower <;> exact .bool b
  | number => cases hlower <;> exact .number
  | text s => cases hlower <;> exact .text s

/-! ### Ways -/

/-- What a way of keys leads to. -/
def at? : (keys : List String) → Document → Option Document
  | [], d => some d
  | key :: keys, .table members => (member? members key).bind (at? keys)
  | _ :: _, _ => none

/-- A table. -/
def IsTable (d : Document) : Prop := ∃ members, d = .table members

/-- A text or a truth value. -/
def IsPlain (d : Document) : Prop := (∃ s, d = .text s) ∨ ∃ b, d = .bool b

instance (d : Document) : Decidable d.IsTable :=
  match d with
  | .table members => isTrue ⟨members, rfl⟩
  | .null | .bool _ | .number | .text _ | .list _ => isFalse nofun

instance (d : Document) : Decidable d.IsPlain :=
  match d with
  | .text s => isTrue (.inl ⟨s, rfl⟩)
  | .bool b => isTrue (.inr ⟨b, rfl⟩)
  | .null | .number | .list _ | .table _ => isFalse nofun

theorem at?_cons (key : String) (keys : List String) (members : List (String × Document)) :
    at? (key :: keys) (.table members) = (member? members key).bind (at? keys) := rfl

theorem at?_single (key : String) (members : List (String × Document)) :
    at? [key] (.table members) = member? members key := by
  rw [at?_cons]
  cases member? members key <;> rfl

theorem merge_of_isPlain (h : d.IsPlain) (lower : Document) : merge lower d = d := by
  rcases h with ⟨s, rfl⟩ | ⟨b, rfl⟩ <;> cases lower <;> rfl

theorem merge_of_not_isTable {lower : Document} (h : ¬lower.IsTable) (upper : Document) : merge lower upper = upper := by
  cases lower with
  | table members => exact absurd ⟨members, rfl⟩ h
  | _ => cases upper <;> rfl

theorem unite_of_isPlain {lower upper : Option Document} (h : ∀ d, upper = some d → d.IsPlain) :
    unite lower upper = upper.or lower := by
  cases upper with
  | none => rfl
  | some d =>
    cases lower with
    | none => rfl
    | some lower => exact congrArg some (merge_of_isPlain (h d rfl) lower)

theorem isTable_unite {lower upper : Option Document} (hlower : ∀ d, lower = some d → d.IsTable)
    (hupper : ∀ d, upper = some d → d.IsTable) (h : unite lower upper = some d) : d.IsTable := by
  cases upper with
  | none => exact hlower d h
  | some upper =>
    obtain ⟨members, rfl⟩ := hupper upper rfl
    cases lower with
    | none => exact ⟨members, (Option.some.inj h).symm⟩
    | some lower =>
      obtain ⟨members', rfl⟩ := hlower lower rfl
      exact ⟨mergeMembers members' members, (Option.some.inj h).symm⟩

/-- **A member of united tables** is that of the upper one if there is one, and that of the lower one else. -/
theorem at?_mergeMembers_single (hsorted : Sorted upper) (hplain : ∀ d, at? [key] (.table upper) = some d → d.IsPlain) :
    at? [key] (.table (mergeMembers lower upper)) = (at? [key] (.table upper)).or (at? [key] (.table lower)) := by
  simp only [at?_single] at hplain ⊢
  rw [member?_mergeMembers hsorted, unite_of_isPlain hplain]

/-- **The same one level below**, where both tables have a table there, if anything. -/
theorem at?_mergeMembers_pair {name : String} (hordered : Ordered (.table upper))
    (hlower : ∀ d, member? lower name = some d → d.IsTable) (hupper : ∀ d, member? upper name = some d → d.IsTable)
    (hplain : ∀ d, at? [name, key] (.table upper) = some d → d.IsPlain) :
    at? [name, key] (.table (mergeMembers lower upper)) =
      (at? [name, key] (.table upper)).or (at? [name, key] (.table lower)) := by
  simp only [at?_cons name] at hplain ⊢
  rw [member?_mergeMembers hordered.sorted]
  cases hu : member? upper name with
  | none => cases member? lower name <;> rfl
  | some u =>
    obtain ⟨inner, rfl⟩ := hupper u hu
    cases hl : member? lower name with
    | none => exact (Option.or_none).symm
    | some l =>
      obtain ⟨inner', rfl⟩ := hlower l hl
      rw [hu] at hplain
      exact at?_mergeMembers_single (hordered.of_member? hu).sorted hplain

end Document

end ManifestBump

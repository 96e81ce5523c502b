import ManifestBump.Config.Decode
import ManifestBump.Proofs.Document

/-! What a configuration says of each field, told from the document it is read from.

A field is a way of keys, and what is read is looked at through its fields (`Setting.Shows`): reading a value for one key changes
the fields that begin with it, and no others. So each field is what the document has there, whatever else is in it, and
otherwise what it was before anything was read (`shown_of_decodeMembers`). Two sorted tables that have the same at all keys
that matter are read alike (`decodeMembers_congr`), and standard members that change nothing may stand below a table
(`Backed.decodeMembers_eq`). -/
namespace ManifestBump.Config
open Document (member? member?_cons member?_filter member?_of_lt at? Ordered Sorted)

/-! ### Settings one by one -/

section Settings
variable {σ : Type} {settings : List (Setting σ)} {members members' : List (String × Document)} {s s' : σ}

theorem apply_eq_ok {setting : Setting σ} {key : String} {d : Document} (h : setting.apply key d s = .ok s') :
    setting.read d s = .ok s' := by
  rw [Setting.apply, Decoder.under] at h
  cases hread : setting.read d s with
  | error m =>
    rw [hread] at h
    cases h
  | ok s'' =>
    rw [hread] at h
    exact congrArg Except.ok (Except.ok.inj h)

theorem read_of {α : Type} {key : String} {decode : Decoder α} {store : α → σ → σ} {d : Document}
    (h : (Setting.of key decode store).read d s = .ok s') : ∃ v, decode d = .ok v ∧ s' = store v s := by
  obtain ⟨v, hv, hs⟩ := exists_of_map_eq_ok h
  exact ⟨v, hv, hs.symm⟩

/-- One member that is read, or passed over. -/
theorem decodeMembers_cons {m : String × Document} (h : decodeMembers settings (m :: members) s = .ok s') :
    (settings.find? (·.key == m.1) = none ∧ decodeMembers settings members s = .ok s') ∨
      ∃ setting ∈ settings, setting.key = m.1 ∧ ∃ between, setting.read m.2 s = .ok between ∧
        decodeMembers settings members between = .ok s' := by
  rw [decodeMembers] at h
  split at h
  next hnone => exact .inl ⟨hnone, h⟩
  next setting hfind =>
    split at h
    next between hread =>
      have hkey : setting.key = m.1 := by simpa using List.find?_some hfind
      exact .inr ⟨setting, List.mem_of_find?_eq_some hfind, hkey, between, apply_eq_ok hread, h⟩
    · cases h

/-- What is seen of a field changes with a setting if it begins with its key, and not otherwise. -/
def Setting.Shows (setting : Setting σ) (fits : String → Document → Prop) (see : σ → List String → Option Document)
    (fields : List (List String)) : Prop :=
  ∀ d s s', fits setting.key d → setting.read d s = .ok s' → ∀ key keys, key :: keys ∈ fields →
    see s' (key :: keys) = if key = setting.key then at? keys d else see s (key :: keys)

theorem shows_of {α : Type} {name : String} {decode : Decoder α} {store : α → σ → σ} {fits : String → Document → Prop}
    {see : σ → List String → Option Document} {fields : List (List String)} (put : α → List String → Option Document)
    (hput : ∀ {d v}, fits name d → decode d = .ok v → ∀ keys, name :: keys ∈ fields → put v keys = at? keys d)
    (hstore : ∀ v s key keys, key :: keys ∈ fields →
      see (store v s) (key :: keys) = if key = name then put v keys else see s (key :: keys)) :
    (Setting.of name decode store).Shows fits see fields := by
  intro d s s' hd hread key keys hfield
  obtain ⟨v, hv, rfl⟩ := read_of hread
  rw [hstore v s key keys hfield]
  by_cases hkey : key = name
  · rw [if_pos hkey, hput hd hv keys (hkey ▸ hfield)]
    exact (if_pos hkey).symm
  · rw [if_neg hkey]
    exact (if_neg hkey).symm

/-- **After a table has been read, each field is what the table has there**, or what it was before. -/
theorem shown_of_decodeMembers {fits : String → Document → Prop} {see : σ → List String → Option Document}
    {fields : List (List String)} (hshows : ∀ setting ∈ settings, setting.Shows fits see fields) (hsorted : Sorted members)
    (hfits : ∀ setting ∈ settings, ∀ d, member? members setting.key = some d → fits setting.key d)
    (h : decodeMembers settings members s = .ok s') {key : String} {keys : List String} (hfield : key :: keys ∈ fields)
    (hkey : ∃ setting ∈ settings, setting.key = key) :
    see s' (key :: keys) = match member? members key with
      | none => see s (key :: keys)
      | some d => at? keys d := by
  induction members generalizing s with
  | nil =>
    cases h
    rfl
  | cons m members ih =>
    obtain ⟨hfirst, hrest⟩ := List.pairwise_cons.mp hsorted
    have habsent : member? members m.1 = none := member?_of_lt hfirst
    have hfits' : ∀ setting ∈ settings, ∀ d, member? members setting.key = some d → fits setting.key d := by
      intro setting hmem d hd
      refine hfits setting hmem d ?_
      rw [member?_cons, if_neg, hd]
      rintro heq
      rw [heq, habsent] at hd
      cases hd
    rw [member?_cons]
    rcases decodeMembers_cons h with ⟨hnone, h⟩ | ⟨setting, hmem, hsetting, between, hread, h⟩
    · obtain ⟨setting, hmem, rfl⟩ := hkey
      have hne : setting.key ≠ m.1 := by simpa using List.find?_eq_none.mp hnone setting hmem
      rw [if_neg hne]
      exact ih hrest hfits' h
    · have hfit : fits setting.key m.2 := hfits setting hmem m.2 (by rw [member?_cons, if_pos hsetting])
      have hsee := hshows setting hmem m.2 s between hfit hread key keys hfield
      rw [ih hrest hfits' h]
      rw [hsetting] at hsee
      by_cases heq : key = m.1
      · rw [if_pos heq, heq, habsent]
        rw [if_pos heq, heq] at hsee
        exact hsee
      · rw [if_neg heq] at hsee ⊢
        rw [hsee]

/-! ### Tables that are read alike -/

/-- Two values that are read alike, or none at all. -/
def Alike (setting : Setting σ) : Option Document → Option Document → Prop
  | none, none => True
  | some d, some d' => ∀ s, setting.read d s = setting.read d' s
  | _, _ => False

theorem alike_refl (setting : Setting σ) (d : Option Document) : Alike setting d d := by
  cases d with
  | none => trivial
  | some d => exact fun _ => rfl

/-- Members of no setting. -/
def Unknown (settings : List (Setting σ)) (members : List (String × Document)) : Prop :=
  ∀ m ∈ members, settings.find? (·.key == m.1) = none

theorem decodeMembers_append (h : Unknown settings members) (members' : List (String × Document)) (s : σ) :
    decodeMembers settings (members ++ members') s = decodeMembers settings members' s := by
  induction members with
  | nil => rfl
  | cons m members ih =>
    obtain ⟨hm, hmembers⟩ := List.forall_mem_cons.mp h
    rw [List.cons_append, decodeMembers, hm]
    exact ih hmembers

theorem member?_append (h : Unknown settings members) (members' : List (String × Document)) {key : String}
    (hkey : (settings.find? (·.key == key)).isSome) : member? (members ++ members') key = member? members' key := by
  induction members with
  | nil => rfl
  | cons m members ih =>
    obtain ⟨hm, hmembers⟩ := List.forall_mem_cons.mp h
    rw [List.cons_append, member?_cons, if_neg, ih hmembers]
    rintro rfl
    rw [hm] at hkey
    cases hkey

/-- What is in one of two tables only that are read alike is of no setting. -/
theorem unknown_of_alike {front : List (String × Document)}
    (halike : ∀ key setting, settings.find? (·.key == key) = some setting →
      Alike setting (member? members key) (member? members' key))
    (h : ∀ m ∈ front, member? members m.1 = none ∧ member? members' m.1 = some m.2) : Unknown settings front := by
  intro m hm
  obtain ⟨hnone, hsome⟩ := h m hm
  cases hfind : settings.find? (·.key == m.1) with
  | none => rfl
  | some setting =>
    have hm' := halike m.1 setting hfind
    rw [hnone, hsome] at hm'
    exact hm'.elim

/-- **Sorted tables are read alike** if their values for all settings are, in whatever way they differ besides. -/
theorem decodeMembers_congr (hsorted : Sorted members) (hsorted' : Sorted members')
    (halike : ∀ key setting, settings.find? (·.key == key) = some setting →
      Alike setting (member? members key) (member? members' key)) (s : σ) :
    decodeMembers settings members s = decodeMembers settings members' s := by
  induction members generalizing members' s with
  | nil =>
    have hunknown : Unknown settings members' := unknown_of_alike halike fun m hm => ⟨rfl, hsorted'.member?_eq hm⟩
    have hread := decodeMembers_append hunknown [] s
    rw [List.append_nil] at hread
    exact hread.symm
  | cons m members ih =>
    obtain ⟨hfirst, hrest⟩ := List.pairwise_cons.mp hsorted
    cases hfind : settings.find? (·.key == m.1) with
    | none =>
      rw [decodeMembers, hfind]
      refine ih hrest hsorted' (fun key setting hkey => ?_) s
      have hne : key ≠ m.1 := by
        rintro rfl
        rw [hkey] at hfind
        cases hfind
      have hm := halike key setting hkey
      rwa [member?_cons, if_neg hne] at hm
    | some setting =>
      have hm := halike m.1 setting hfind
      rw [member?_cons, if_pos rfl] at hm
      cases hm' : member? members' m.1 with
      | none =>
        rw [hm'] at hm
        exact hm.elim
      | some d' =>
        rw [hm'] at hm
        obtain ⟨front, behind, rfl, -⟩ := List.lookup_eq_some_iff.mp hm'
        obtain ⟨-, hbehind, hbefore⟩ := List.pairwise_append.mp hsorted'
        obtain ⟨hlater, hbehind⟩ := List.pairwise_cons.mp hbehind
        -- What stands in front of the member in the other table is smaller, so this table does not have it.
        have hunknown : Unknown settings front := by
          refine unknown_of_alike halike fun x hx => ?_
          have hlt : x.1 < m.1 := hbefore x hx (m.1, d') List.mem_cons_self
          rw [member?_cons, if_neg (ne_of_lt hlt)]
          exact ⟨member?_of_lt fun y hy => lt_trans hlt (hfirst y hy), hsorted'.member?_eq (List.mem_append_left _ hx)⟩
        rw [decodeMembers_append hunknown, decodeMembers, decodeMembers, hfind]
        simp only [Setting.apply, Decoder.under, hm s]
        split
        · refine ih hrest hbehind (fun key setting' hkey => ?_) _
          have hx := halike key setting' hkey
          rw [member?_cons, member?_append hunknown _ (by rw [hkey]; rfl), member?_cons] at hx
          by_cases heq : key = m.1
          · rw [heq, member?_of_lt hfirst, member?_of_lt hlater]
            trivial
          · rwa [if_neg heq, if_neg heq] at hx
        · rfl

/-! ### Members that change nothing -/

/-- A member that changes nothing when it is read. -/
def Idle (settings : List (Setting σ)) (s : σ) (m : String × Document) : Prop :=
  ∀ setting, settings.find? (·.key == m.1) = some setting → setting.read m.2 s = .ok s

/-- A value that changes nothing still changes nothing when another setting has been read. -/
def Apart (settings : List (Setting σ)) : Prop :=
  ∀ setting ∈ settings, ∀ other ∈ settings, other.key ≠ setting.key → ∀ d d' s s',
    setting.read d s = .ok s → other.read d' s = .ok s' → setting.read d s' = .ok s'

theorem read_of_comm {α β : Type} {key key' : String} {decode : Decoder α} {decode' : Decoder β} {store : α → σ → σ}
    {store' : β → σ → σ} {d d' : Document} (h : (Setting.of key decode store).read d s = .ok s)
    (h' : (Setting.of key' decode' store').read d' s = .ok s')
    (hcomm : ∀ v w s, store v (store' w s) = store' w (store v s)) :
    (Setting.of key decode store).read d s' = .ok s' := by
  obtain ⟨v, hv, hs⟩ := read_of h
  obtain ⟨w, -, rfl⟩ := read_of h'
  show (decode d).map (store · (store' w s)) = .ok (store' w s)
  rw [hv]
  show Except.ok (store v (store' w s)) = .ok (store' w s)
  rw [hcomm, ← hs]

/-- **Members that change nothing may be left out.** -/
theorem decodeMembers_filter (hapart : Apart settings) (hsorted : Sorted members) {p : String → Bool}
    (hidle : ∀ m ∈ members, p m.1 = false → Idle settings s m) :
    decodeMembers settings (members.filter fun m => p m.1) s = decodeMembers settings members s := by
  induction members generalizing s with
  | nil => rfl
  | cons m members ih =>
    obtain ⟨hfirst, hrest⟩ := List.pairwise_cons.mp hsorted
    obtain ⟨hm, hmembers⟩ := List.forall_mem_cons.mp hidle
    rw [List.filter_cons, decodeMembers]
    cases hfind : settings.find? (·.key == m.1) with
    | none =>
      split
      · rw [decodeMembers, hfind]
        exact ih hrest hmembers
      · exact ih hrest hmembers
    | some setting =>
      cases hp : p m.1 with
      | false =>
        simp only [Setting.apply, Decoder.under, hm hp setting hfind, Except.mapError]
        exact ih hrest hmembers
      | true =>
        rw [if_pos rfl, decodeMembers, hfind]
        dsimp only
        split
        next between hread =>
          refine ih hrest fun m' hm' hp' setting' hfind' => ?_
          have hkey : setting.key = m.1 := by simpa using List.find?_some hfind
          have hkey' : setting'.key = m'.1 := by simpa using List.find?_some hfind'
          have hne : setting.key ≠ setting'.key := by
            rw [hkey, hkey']
            exact ne_of_lt (hfirst m' hm')
          exact hapart setting' (List.mem_of_find?_eq_some hfind') setting (List.mem_of_find?_eq_some hfind) hne _ _ _ _
            (hmembers m' hm' hp' setting' hfind') (apply_eq_ok hread)
        · rfl

/-- A table with standard members where another one has none. -/
structure Backed (standard members backed : List (String × Document)) : Prop where
  ordered : Ordered (.table members)
  ordered_backed : Ordered (.table backed)
  member?_eq : ∀ key, member? backed key = (member? members key).or (member? standard key)

/-- **Standard members that change nothing may stand below others.** -/
theorem Backed.decodeMembers_eq {standard backed : List (String × Document)} (h : Backed standard members backed)
    (hapart : Apart settings) (hidle : ∀ m ∈ standard, Idle settings s m) :
    decodeMembers settings backed s = decodeMembers settings members s := by
  let isSet : String → Bool := fun key => (member? members key).isSome
  have hsorted := h.ordered_backed.sorted
  have hleft : ∀ m ∈ backed, isSet m.1 = false → Idle settings s m := by
    intro m hm hunset
    have hnone : member? members m.1 = none := by simpa [isSet] using hunset
    have hstandard := h.member?_eq m.1
    rw [hsorted.member?_eq hm, hnone, Option.none_or] at hstandard
    exact hidle m (Document.mem_of_lookup hstandard.symm)
  rw [← decodeMembers_filter hapart hsorted hleft]
  refine decodeMembers_congr (hsorted.filter _) h.ordered.sorted (fun key setting _ => ?_) s
  rw [member?_filter, h.member?_eq]
  cases hm : member? members key with
  | none => simp [isSet, hm, Alike]
  | some d => simpa [isSet, hm] using alike_refl setting (some d)

end Settings

end ManifestBump.Config

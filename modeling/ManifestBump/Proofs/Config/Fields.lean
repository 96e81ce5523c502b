import ManifestBump.Proofs.Config.Decode

/-! The fields of a configuration.

A configuration is looked at through its fields, each of which is a text, a truth value or not there (`value?`). If known
sections are tables and known fields are texts or truth values, a configuration that is read has in each field what the
document has there (`value?_of_ofMembers`). -/
namespace ManifestBump.Config
open Document (member? at? at?_cons at?_single Ordered IsPlain)

/-! ### Fields and their values -/

/-- The sections, and the keys of their fields. -/
def sections : List (String × List String) :=
  [("target", ["file", "key"]), ("labels", ["patch", "minor", "major"]), ("reference", ["branch", "use_tag"]),
    ("comment", ["enabled", "message"]), ("commit", ["enabled", "message", "username", "email"])]

/-- All fields, by the keys that lead to them. -/
def fields : List (List String) :=
  ["log_level"] :: ["log_dir"] :: sections.flatMap fun (name, keys) => keys.map fun key => [name, key]

def Target.value? (t : Target) : List String → Option Document
  | ["file"] => t.file.map .text
  | ["key"] => t.key.map .text
  | _ => none

def Labels.value? (l : Labels) : List String → Option Document
  | ["patch"] => l.patch.map .text
  | ["minor"] => l.minor.map .text
  | ["major"] => l.major.map .text
  | _ => none

def Reference.value? (r : Reference) : List String → Option Document
  | ["branch"] => r.branch.map .text
  | ["use_tag"] => r.useTag.map .bool
  | _ => none

def Comment.value? (c : Comment) : List String → Option Document
  | ["enabled"] => c.enabled.map .bool
  | ["message"] => c.message.map .text
  | _ => none

def Commit.value? (c : Commit) : List String → Option Document
  | ["enabled"] => c.enabled.map .bool
  | ["message"] => c.message.map .text
  | ["username"] => c.username.map .text
  | ["email"] => c.email.map .text
  | _ => none

/-- What a configuration has in a field. A section that is not there has nothing in its fields. -/
def value? (c : Config) : List String → Option Document
  | ["log_level"] => some (.text c.logLevel.text)
  | ["log_dir"] => c.logDir.map .text
  | "target" :: keys => c.target.bind (·.value? keys)
  | "labels" :: keys => c.labels.bind (·.value? keys)
  | "reference" :: keys => c.reference.bind (·.value? keys)
  | "comment" :: keys => c.comment.bind (·.value? keys)
  | "commit" :: keys => c.commit.bind (·.value? keys)
  | _ => none

/-- Known sections are tables, and known fields are texts or truth values. -/
structure WellTyped (members : List (String × Document)) : Prop where
  sections : ∀ s ∈ sections, ∀ d, member? members s.1 = some d → d.IsTable
  fields : ∀ field ∈ fields, ∀ d, at? field (.table members) = some d → d.IsPlain

theorem wellTyped_iff {members : List (String × Document)} :
    WellTyped members ↔ (∀ s ∈ sections, ∀ d ∈ member? members s.1, d.IsTable) ∧
      ∀ field ∈ fields, ∀ d ∈ at? field (.table members), d.IsPlain :=
  ⟨fun h => ⟨h.sections, h.fields⟩, fun h => ⟨h.1, h.2⟩⟩

instance (members : List (String × Document)) : Decidable (WellTyped members) := decidable_of_iff' _ wellTyped_iff

/-! ### Values that are read -/

theorem decodeText_shows {d : Document} {v : Option String} (hd : d.IsPlain) (h : decodeOptional decodeText d = .ok v) :
    v.map .text = some d := by
  rcases hd with ⟨s, rfl⟩ | ⟨b, rfl⟩
  · cases h
    rfl
  · cases h

theorem decodeBool_shows {d : Document} {v : Option Bool} (hd : d.IsPlain) (h : decodeOptional decodeBool d = .ok v) :
    v.map .bool = some d := by
  rcases hd with ⟨s, rfl⟩ | ⟨b, rfl⟩
  · cases h
  · cases h
    rfl

theorem decodeLogLevel_shows {d : Document} {l : LogLevel} (hd : d.IsPlain) (h : decodeLogLevel d = .ok l) :
    Document.text l.text = d := by
  rcases hd with ⟨name, rfl⟩ | ⟨b, rfl⟩
  · rw [decodeLogLevel, decodeLogLevel.level] at h
    split at h
    next l' hl =>
      cases h
      have hname : (l.text == name) = true := List.find?_some (p := fun l' : LogLevel => l'.text == name) hl
      rw [eq_of_beq hname]
    · cases h
  · cases h

/-! ### Sections -/

section Sections
variable {σ : Type} {settings : List (Setting σ)} {see : σ → List String → Option Document} {keys : List String}

/-- A setting of a section shows in the field of its key. -/
theorem shows_field {α : Type} {key : String} {decode : Decoder α} {store : α → σ → σ} {put : α → Option Document}
    (hput : ∀ {d v}, IsPlain d → decode d = .ok v → put v = some d)
    (hstore : ∀ v s, ∀ k ∈ keys, see (store v s) [k] = if k = key then put v else see s [k]) :
    (Setting.of key decode store).Shows (fun _ => IsPlain) see (keys.map fun k => [k]) := by
  refine shows_of (fun v _ => put v) (fun {d v} hd hv ks hks => ?_) fun v s k ks hk => ?_
  · obtain ⟨_, -, heq⟩ := List.mem_map.mp hks
    cases heq
    exact hput hd hv
  · obtain ⟨k', hk', heq⟩ := List.mem_map.mp hk
    cases heq
    exact hstore v s k hk'

/-- A section with fields of some keys, by how it is read from a table and what is seen of it. -/
structure IsSection (keys : List String) (decode : Decoder σ) (see : σ → List String → Option Document) : Prop where
  /-- Each field is what the table has there. -/
  shown {inner : List (String × Document)} {s : σ} (hordered : Ordered (.table inner))
    (hplain : ∀ key ∈ keys, ∀ d, member? inner key = some d → d.IsPlain) (h : decode (.table inner) = .ok s) :
    ∀ key ∈ keys, see s [key] = member? inner key
  /-- Nothing but the fields matters. -/
  congr {inner inner' : List (String × Document)} (hordered : Ordered (.table inner))
    (hordered' : Ordered (.table inner')) (h : ∀ key ∈ keys, member? inner key = member? inner' key) :
    decode (.table inner) = decode (.table inner')

theorem isSection {unset : σ} (hshows : ∀ setting ∈ settings, setting.Shows (fun _ => IsPlain) see (keys.map fun k => [k]))
    (hkeys : settings.map Setting.key = keys) (hunset : ∀ key ∈ keys, see unset [key] = none) :
    IsSection keys (decodeSection settings unset) see := by
  constructor
  · intro inner s hordered hplain h key hkey
    have hsetting : ∃ setting ∈ settings, setting.key = key := List.mem_map.mp (hkeys ▸ hkey)
    have hfits : ∀ setting ∈ settings, ∀ d, member? inner setting.key = some d → d.IsPlain := fun setting hmem =>
      hplain setting.key (hkeys ▸ List.mem_map_of_mem hmem)
    rw [shown_of_decodeMembers hshows hordered.sorted hfits h (List.mem_map_of_mem hkey) hsetting, hunset key hkey]
    cases member? inner key <;> rfl
  · intro inner inner' hordered hordered' h
    refine decodeMembers_congr hordered.sorted hordered'.sorted (fun key setting hfind => ?_) unset
    have hkey : setting.key = key := by simpa using List.find?_some hfind
    rw [← hkey, h _ (hkeys ▸ List.mem_map_of_mem (List.mem_of_find?_eq_some hfind))]
    exact alike_refl setting _

theorem isSection_target : IsSection ["file", "key"] decodeTarget Target.value? := by
  refine isSection ?_ rfl (by decide)
  simp only [List.forall_mem_cons]
  refine ⟨shows_field decodeText_shows ?_, shows_field decodeText_shows ?_, List.forall_mem_nil _⟩ <;> simp [Target.value?]

theorem isSection_labels : IsSection ["patch", "minor", "major"] decodeLabels Labels.value? := by
  refine isSection ?_ rfl (by decide)
  simp only [List.forall_mem_cons]
  refine ⟨shows_field decodeText_shows ?_, shows_field decodeText_shows ?_, shows_field decodeText_shows ?_,
    List.forall_mem_nil _⟩ <;> simp [Labels.value?]

theorem isSection_reference : IsSection ["branch", "use_tag"] decodeReference Reference.value? := by
  refine isSection ?_ rfl (by decide)
  simp only [List.forall_mem_cons]
  refine ⟨shows_field decodeText_shows ?_, shows_field decodeBool_shows ?_, List.forall_mem_nil _⟩ <;>
    simp [Reference.value?]

theorem isSection_comment : IsSection ["enabled", "message"] decodeComment Comment.value? := by
  refine isSection ?_ rfl (by decide)
  simp only [List.forall_mem_cons]
  refine ⟨shows_field decodeBool_shows ?_, shows_field decodeText_shows ?_, List.forall_mem_nil _⟩ <;>
    simp [Comment.value?]

theorem isSection_commit : IsSection ["enabled", "message", "username", "email"] decodeCommit Commit.value? := by
  refine isSection ?_ rfl (by decide)
  simp only [List.forall_mem_cons]
  refine ⟨shows_field decodeBool_shows ?_, shows_field decodeText_shows ?_, shows_field decodeText_shows ?_,
    shows_field decodeText_shows ?_, List.forall_mem_nil _⟩ <;> simp [Commit.value?]

end Sections

/-! ### Configurations -/

/-- What may stand at a key: a table for a section, with plain values in its fields, or a plain value. -/
structure Fits (name : String) (d : Document) : Prop where
  ordered : Ordered d
  table : ∀ keys, (name, keys) ∈ sections → d.IsTable
  plain : ∀ keys, name :: keys ∈ fields → ∀ d', at? keys d = some d' → d'.IsPlain

theorem mem_fields_of_mem_sections {name key : String} {keys : List String} (h : (name, keys) ∈ sections) (hkey : key ∈ keys) :
    [name, key] ∈ fields := by
  refine List.mem_cons_of_mem _ (List.mem_cons_of_mem _ ?_)
  exact List.mem_flatMap.mpr ⟨(name, keys), h, List.mem_map_of_mem hkey⟩

/-- The fields that begin with the name of a section are those of its keys. -/
theorem exists_key_of_mem_fields {name : String} {keys ks : List String} (h : (name, keys) ∈ sections)
    (hfield : name :: ks ∈ fields) : ∃ key ∈ keys, ks = [key] := by
  have hall : ∀ field ∈ fields, ∀ s ∈ sections, field.head? = some s.1 → ∃ key ∈ s.2, field.tail = [key] := by decide
  exact hall _ hfield _ h rfl

section Shown
variable {σ α : Type} {name : String} {keys : List String}

/-- A plain setting shows in the field of its key. -/
theorem shows_plain {decode : Decoder α} {store : α → Config → Config} (put : α → List String → Option Document)
    (hname : ∀ ks, name :: ks ∈ fields → ks = []) (hput : ∀ {d v}, IsPlain d → decode d = .ok v → put v [] = some d)
    (hstore : ∀ v c k ks, k :: ks ∈ fields → value? (store v c) (k :: ks) = if k = name then put v ks else value? c (k :: ks)) :
    (Setting.of name decode store).Shows Fits value? fields := by
  refine shows_of put (fun {d v} hd hv ks hks => ?_) hstore
  obtain rfl := hname ks hks
  exact hput (hd.plain [] hks d rfl) hv

/-- A section shows in its fields. -/
theorem shows_section {decode : Decoder σ} {see : σ → List String → Option Document} {store : Option σ → Config → Config}
    (hsection : IsSection keys decode see) (hname : (name, keys) ∈ sections)
    (hstore : ∀ v c k ks, k :: ks ∈ fields →
      value? (store v c) (k :: ks) = if k = name then v.bind (see · ks) else value? c (k :: ks)) :
    (Setting.of name (decodeOptional decode) store).Shows Fits value? fields := by
  refine shows_of (fun v ks => v.bind (see · ks)) (fun {d v} hd hv ks hks => ?_) hstore
  obtain ⟨inner, rfl⟩ := hd.table keys hname
  obtain ⟨key, hkey, rfl⟩ := exists_key_of_mem_fields hname hks
  have hplain : ∀ key ∈ keys, ∀ d, member? inner key = some d → d.IsPlain := by
    intro key hkey d hd'
    exact hd.plain [key] (mem_fields_of_mem_sections hname hkey) d (by rw [at?_single, hd'])
  obtain ⟨s, hs, rfl⟩ := exists_of_map_eq_ok hv
  rw [at?_single]
  exact hsection.shown hd.ordered hplain hs key hkey

theorem shows_settings : ∀ setting ∈ settings, setting.Shows Fits value? fields := by
  have hplain : ∀ name ∈ ["log_level", "log_dir"], ∀ ks, name :: ks ∈ fields → ks = [] := by
    intro name hname ks hks
    have hall : ∀ name ∈ ["log_level", "log_dir"], ∀ field ∈ fields, field.head? = some name → field.tail = [] := by decide
    exact hall name hname _ hks rfl
  simp only [settings, List.forall_mem_cons]
  refine ⟨shows_plain (fun l ks => value? { logLevel := l } ("log_level" :: ks)) (hplain _ (by decide))
      (fun hd hv => congrArg some (decodeLogLevel_shows hd hv)) ?_,
    shows_plain (fun v ks => value? { logDir := v } ("log_dir" :: ks)) (hplain _ (by decide)) decodeText_shows ?_,
    shows_section isSection_target (by decide) ?_, shows_section isSection_labels (by decide) ?_,
    shows_section isSection_reference (by decide) ?_, shows_section isSection_comment (by decide) ?_,
    shows_section isSection_commit (by decide) ?_, List.forall_mem_nil _⟩
  -- Every setting stores one part, which is looked at for its key only.
  all_goals
    intro v c k ks _
    split
    next h =>
      subst h
      cases ks <;> rfl
    next h =>
      rw [value?.eq_def, value?.eq_def]
      split <;> first | rfl | exact absurd (List.cons.inj ‹_›).1 h

end Shown

section Whole
variable {members members' : List (String × Document)} {name : String} {keys : List String}

theorem WellTyped.fits (h : WellTyped members) (hordered : Ordered (.table members)) {d : Document}
    (hd : member? members name = some d) : Fits name d where
  ordered := hordered.of_member? hd
  table := fun keys hkeys => h.sections (name, keys) hkeys d hd
  plain := fun keys hfield d' hd' => h.fields (name :: keys) hfield d' (by rw [at?_cons, hd]; exact hd')

/-- **A configuration has in each field what its document has there**, and otherwise what it has by default. -/
theorem value?_of_ofMembers (h : WellTyped members) (hordered : Ordered (.table members)) {c : Config}
    (hof : ofMembers members = .ok c) :
    ∀ field ∈ fields, c.value? field = (at? field (.table members)).or (({} : Config).value? field) := by
  intro field hfield
  have hknown : ∀ field ∈ fields, ∃ setting ∈ settings, field = setting.key :: field.tail := by decide
  have hunset : ∀ field ∈ fields, field.tail ≠ [] → ({} : Config).value? field = none := by decide
  obtain ⟨setting, hmem, hkey⟩ := hknown field hfield
  generalize field.tail = keys at hkey
  subst hkey
  rw [shown_of_decodeMembers shows_settings hordered.sorted (fun setting _ d hd => h.fits hordered hd) hof hfield
    ⟨setting, hmem, rfl⟩, at?_cons]
  cases member? members setting.key with
  | none => rfl
  | some d =>
    show at? keys d = (at? keys d).or _
    cases keys with
    | nil => rfl
    | cons key keys => rw [hunset _ hfield (List.cons_ne_nil key keys), Option.or_none]

theorem alike_section {σ : Type} {decode : Decoder σ} {see : σ → List String → Option Document}
    {store : Option σ → Config → Config} (hsection : IsSection keys decode see) (hname : (name, keys) ∈ sections)
    (h : WellTyped members) (h' : WellTyped members') (hordered : Ordered (.table members))
    (hordered' : Ordered (.table members'))
    (hfields : ∀ field ∈ fields, at? field (.table members) = at? field (.table members'))
    (hsections : ∀ s ∈ sections, (member? members s.1).isSome = (member? members' s.1).isSome) :
    Alike (.of name (decodeOptional decode) store) (member? members name) (member? members' name) := by
  have hsome := hsections _ hname
  have htable := h.sections _ hname
  have htable' := h'.sections _ hname
  have hkeys : ∀ key ∈ keys, (member? members name).bind (at? [key]) = (member? members' name).bind (at? [key]) :=
    fun key hkey => hfields _ (mem_fields_of_mem_sections hname hkey)
  dsimp only at hsome htable htable'
  cases hd : member? members name with
  | none =>
    cases hd' : member? members' name with
    | none => trivial
    | some d' => simp [hd, hd'] at hsome
  | some d =>
    cases hd' : member? members' name with
    | none => simp [hd, hd'] at hsome
    | some d' =>
      obtain ⟨inner, rfl⟩ := htable d hd
      obtain ⟨inner', rfl⟩ := htable' d' hd'
      have hinner : ∀ key ∈ keys, member? inner key = member? inner' key := by
        intro key hkey
        have hsame := hkeys key hkey
        rw [hd, hd'] at hsame
        rwa [← at?_single, ← at?_single]
      have hread := hsection.congr (hordered.of_member? hd) (hordered'.of_member? hd') hinner
      intro c
      show ((decode (.table inner)).map some).map (store · c) = ((decode (.table inner')).map some).map (store · c)
      rw [hread]

/-- **Nothing but the fields matters**, and which sections are there. -/
theorem ofMembers_congr (h : WellTyped members) (h' : WellTyped members') (hordered : Ordered (.table members))
    (hordered' : Ordered (.table members'))
    (hfields : ∀ field ∈ fields, at? field (.table members) = at? field (.table members'))
    (hsections : ∀ s ∈ sections, (member? members s.1).isSome = (member? members' s.1).isSome) :
    ofMembers members = ofMembers members' := by
  have hplain : ∀ (setting : Setting Config), [setting.key] ∈ fields →
      Alike setting (member? members setting.key) (member? members' setting.key) := by
    intro setting hfield
    rw [← at?_single, ← at?_single, hfields _ hfield]
    exact alike_refl setting _
  have hall : ∀ setting ∈ settings, Alike setting (member? members setting.key) (member? members' setting.key) := by
    simp only [settings, List.forall_mem_cons]
    exact ⟨hplain _ (by decide), hplain _ (by decide),
      alike_section isSection_target (by decide) h h' hordered hordered' hfields hsections,
      alike_section isSection_labels (by decide) h h' hordered hordered' hfields hsections,
      alike_section isSection_reference (by decide) h h' hordered hordered' hfields hsections,
      alike_section isSection_comment (by decide) h h' hordered hordered' hfields hsections,
      alike_section isSection_commit (by decide) h h' hordered hordered' hfields hsections, List.forall_mem_nil _⟩
  refine decodeMembers_congr hordered.sorted hordered'.sorted (fun key setting hfind => ?_) ({} : Config)
  have hkey : setting.key = key := by simpa using List.find?_some hfind
  exact hkey ▸ hall setting (List.mem_of_find?_eq_some hfind)

end Whole

end ManifestBump.Config

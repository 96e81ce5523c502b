import ManifestBump.Config.Load
import ManifestBump.Proofs.Config.Fields
import ManifestBump.Proofs.Notation.Json.Ordered
import ManifestBump.Proofs.Notation.Toml.Ordered
import ManifestBump.Proofs.Notation.Yaml.Ordered

/-! Configuration files override each other field by field.

A file sets a field if it has a value there (`setBy?`). What all files say together has in each field what the first file
that sets it has there, in the order of precedence (`union_of_mergeFiles`). The configuration by default, which stands below
all files, adds nothing to that (`load_eq`). So each field is what the first file says, and files that set different fields
may be exchanged (`load_layers`). -/
namespace ManifestBump

/-! ### Tables that files say -/

/-- The table that a file says is ordered, whatever the notation. -/
theorem Notation.ordered_load? {tree : FileTree} {path : String} {members : List (String × Document)}
    (h : Notation.load? tree path = some members) : Document.Ordered (.table members) := by
  rw [Notation.load?] at h
  split at h
  next text _ =>
    rw [Notation.parse?.eq_def] at h
    dsimp only at h
    split at h
    next found hdocument =>
      cases h
      cases hkind : Notation.ofPath path with
      | toml =>
        rw [hkind] at hdocument
        exact Toml.ordered_parse? hdocument
      | yaml =>
        rw [hkind] at hdocument
        exact Yaml.ordered_parse? hdocument
      | json =>
        rw [hkind] at hdocument
        dsimp only at hdocument
        cases hparse : Json.parse text.toList with
        | error fault =>
          rw [hparse] at hdocument
          cases hdocument
        | ok d =>
          rw [hparse] at hdocument
          exact Option.some.inj hdocument ▸ Json.ordered_parse hparse
    · cases h
  · cases h

namespace Config
open Document (member? member?_mergeMembers unite at? Ordered ordered_empty)

/-! ### One table over another -/

section Merge
variable {lower upper : List (String × Document)}

/-- A field is at the top, or in a section. -/
theorem field_cases {field : List String} (h : field ∈ fields) :
    (∃ key, field = [key]) ∨ ∃ s ∈ sections, ∃ key ∈ s.2, field = [s.1, key] := by
  rcases List.mem_cons.mp h with rfl | h
  · exact .inl ⟨_, rfl⟩
  rcases List.mem_cons.mp h with rfl | h
  · exact .inl ⟨_, rfl⟩
  · obtain ⟨s, hs, h⟩ := List.mem_flatMap.mp h
    obtain ⟨key, hkey, rfl⟩ := List.mem_map.mp h
    exact .inr ⟨s, hs, key, hkey, rfl⟩

/-- **In each field, united tables have what the upper one has**, and otherwise what the lower one has. -/
theorem at?_merge (hlower : WellTyped lower) (hupper : WellTyped upper) (hordered : Ordered (.table upper)) :
    ∀ field ∈ fields, at? field (.table (Document.mergeMembers lower upper)) =
      (at? field (.table upper)).or (at? field (.table lower)) := by
  intro field hfield
  rcases field_cases hfield with ⟨key, rfl⟩ | ⟨s, hs, key, hkey, rfl⟩
  · exact Document.at?_mergeMembers_single hordered.sorted (hupper.fields [key] hfield)
  · exact Document.at?_mergeMembers_pair hordered (hlower.sections s hs) (hupper.sections s hs)
      (hupper.fields [s.1, key] hfield)

theorem WellTyped.merge (hlower : WellTyped lower) (hupper : WellTyped upper) (hordered : Ordered (.table upper)) :
    WellTyped (Document.mergeMembers lower upper) := by
  constructor
  · intro s hs d hd
    rw [member?_mergeMembers hordered.sorted] at hd
    exact Document.isTable_unite (hlower.sections s hs) (hupper.sections s hs) hd
  · intro field hfield d hd
    rw [at?_merge hlower hupper hordered field hfield] at hd
    rcases Option.or_eq_some_iff.mp hd with hd | ⟨-, hd⟩
    · exact hupper.fields field hfield d hd
    · exact hlower.fields field hfield d hd

theorem isSome_unite (lower upper : Option Document) : (unite lower upper).isSome = (upper.isSome || lower.isSome) := by
  cases lower <;> cases upper <;> rfl

theorem wellTyped_nil : WellTyped [] := by decide

end Merge

/-! ### All files -/

/-- What a file sets a field to. -/
def setBy? (tree : FileTree) (field : List String) (path : String) : Option Document :=
  (Notation.load? tree path).bind fun members => at? field (.table members)

/-- Whether a file has a section. -/
def opens (tree : FileTree) (name : String) (path : String) : Bool :=
  ((Notation.load? tree path).bind (member? · name)).isSome

/-- All files, those that override others first. -/
def precedence (tree : FileTree) (sources : Sources) : List String :=
  sources.named.reverse ++ (sources.projectFile? tree).toList ++ (sources.userFile? tree).toList

theorem reverse_files (tree : FileTree) (sources : Sources) : (sources.files tree).reverse = precedence tree sources := by
  have htoList : ∀ o : Option String, o.toList.reverse = o.toList := fun o => by cases o <;> rfl
  simp only [Sources.files, precedence, List.reverse_append, htoList, List.append_assoc]

section Files
variable {tree : FileTree} {files : List String} {lower merged : List (String × Document)}

/-- Some tables are united if all files can be read. -/
theorem exists_mergeFiles_iff :
    (∃ merged, mergeFiles tree files lower = .ok merged) ↔ ∀ path ∈ files, (Notation.load? tree path).isSome := by
  induction files generalizing lower with
  | nil => simp [mergeFiles]
  | cons path files ih =>
    rw [mergeFiles, List.forall_mem_cons]
    cases Notation.load? tree path with
    | none => simp
    | some later => simpa using ih

/-- All that files say is well typed. -/
def AllTyped (tree : FileTree) (files : List String) : Prop :=
  ∀ path ∈ files, ∀ members, Notation.load? tree path = some members → WellTyped members

instance (tree : FileTree) (files : List String) : Decidable (AllTyped tree files) :=
  inferInstanceAs (Decidable (∀ path ∈ files, ∀ members ∈ Notation.load? tree path, WellTyped members))

/-- What united tables are, told from the files. -/
structure Union (tree : FileTree) (files : List String) (lower merged : List (String × Document)) : Prop where
  ordered : Ordered (.table merged)
  typed : WellTyped merged
  field : ∀ field ∈ fields,
    at? field (.table merged) = (files.reverse.findSome? (setBy? tree field)).or (at? field (.table lower))
  opens : ∀ name, (member? merged name).isSome = (files.any (opens tree name) || (member? lower name).isSome)

/-- One more file below the others. -/
theorem Union.cons {path : String} {later : List (String × Document)} (hload : Notation.load? tree path = some later)
    (hlater : WellTyped later) (hlower : WellTyped lower) (h : Union tree files (Document.mergeMembers lower later) merged) :
    Union tree (path :: files) lower merged where
  ordered := h.ordered
  typed := h.typed
  field := by
    intro field hfield
    have hset : setBy? tree field path = at? field (.table later) := by rw [setBy?, hload]; rfl
    rw [h.field field hfield, at?_merge hlower hlater (Notation.ordered_load? hload) field hfield, List.reverse_cons,
      List.findSome?_append, List.findSome?_singleton, hset, Option.or_assoc]
  opens := by
    intro name
    have hopens : Config.opens tree name path = (member? later name).isSome := by rw [Config.opens, hload]; rfl
    rw [h.opens, member?_mergeMembers (Notation.ordered_load? hload).sorted, isSome_unite, List.any_cons, hopens,
      ← Bool.or_assoc, Bool.or_comm (files.any _)]

/-- **Files are united field by field.** -/
theorem union_of_mergeFiles (htyped : AllTyped tree files) (hordered : Ordered (.table lower)) (hlower : WellTyped lower)
    (h : mergeFiles tree files lower = .ok merged) : Union tree files lower merged := by
  induction files generalizing lower with
  | nil =>
    cases h
    exact ⟨hordered, hlower, fun _ _ => rfl, fun _ => rfl⟩
  | cons path files ih =>
    obtain ⟨hpath, hfiles⟩ := List.forall_mem_cons.mp htyped
    rw [mergeFiles] at h
    cases hload : Notation.load? tree path with
    | none =>
      rw [hload] at h
      cases h
    | some later =>
      rw [hload] at h
      have hlater := Notation.ordered_load? hload
      have hmerged : Ordered (.table (Document.mergeMembers lower later)) := by
        simpa only [Document.merge] using hordered.merge hlater
      have htypes := hlower.merge (hpath later hload) hlater
      exact (ih hfiles hmerged htypes h).cons hload (hpath later hload) hlower

end Files

/-! ### The configuration by default -/

theorem apart_settings : Apart settings := by
  intro setting hsetting other hother
  simp only [settings, List.mem_cons, List.not_mem_nil, or_false] at hsetting hother
  -- Each setting is stored in a part of its own, so two stores may be exchanged.
  rcases hsetting with rfl | rfl | rfl | rfl | rfl | rfl | rfl <;>
    rcases hother with rfl | rfl | rfl | rfl | rfl | rfl | rfl <;>
    intro hne d d' c c' h h' <;>
    first
    | exact absurd rfl hne
    | exact read_of_comm h h' fun _ _ _ => rfl

theorem ordered_standardMembers : Ordered (.table standardMembers) := by
  refine .table (show List.Pairwise _ _ by decide) ?_
  simp only [standardMembers, List.forall_mem_cons]
  exact ⟨.null, .null, .null, .null, .text _, .null, .null, List.forall_mem_nil _⟩

/-- Standard members are read as what a configuration is without them. -/
theorem idle_standardMembers : ∀ m ∈ standardMembers, Idle settings ({} : Config) m := by
  simp only [standardMembers, List.forall_mem_cons]
  refine ⟨?_, ?_, ?_, ?_, ?_, ?_, ?_, List.forall_mem_nil _⟩ <;> rintro setting ⟨⟩ <;> rfl

theorem Backed.mergeMembers {standard lower backed upper : List (String × Document)} (h : Backed standard lower backed)
    (hstandard : ∀ m ∈ standard, ¬m.2.IsTable) (hupper : Ordered (.table upper)) :
    Backed standard (Document.mergeMembers lower upper) (Document.mergeMembers backed upper) where
  ordered := by simpa only [Document.merge] using h.ordered.merge hupper
  ordered_backed := by simpa only [Document.merge] using h.ordered_backed.merge hupper
  member?_eq := by
    intro key
    rw [member?_mergeMembers hupper.sorted, member?_mergeMembers hupper.sorted, h.member?_eq]
    cases member? lower key with
    | some d => cases member? upper key <;> rfl
    | none =>
      cases hd : member? standard key with
      | none => exact (Option.or_none).symm
      | some d =>
        cases member? upper key with
        | none => rfl
        | some u => exact congrArg some (Document.merge_of_not_isTable (hstandard _ (Document.mem_of_lookup hd)) u)

/-- **The configuration by default adds nothing** to what the files say together, and takes nothing away. -/
theorem load_eq (tree : FileTree) (sources : Sources) :
    load tree sources =
      mergeFiles tree (sources.files tree) [] >>= fun members => (ofMembers members).mapError .misfit := by
  suffices hfiles : ∀ files lower backed, Backed standardMembers lower backed →
      (mergeFiles tree files backed >>= fun members => (ofMembers members).mapError ConfigError.misfit) =
        mergeFiles tree files lower >>= fun members => (ofMembers members).mapError ConfigError.misfit from
    hfiles (sources.files tree) [] standardMembers ⟨ordered_empty, ordered_standardMembers, fun _ => rfl⟩
  intro files
  induction files with
  | nil =>
    intro lower backed h
    exact congrArg (Except.mapError ConfigError.misfit) (h.decodeMembers_eq apart_settings idle_standardMembers)
  | cons path files ih =>
    intro lower backed h
    rw [mergeFiles, mergeFiles]
    cases hload : Notation.load? tree path with
    | none => rfl
    | some later => exact ih _ _ (h.mergeMembers (by decide) (Notation.ordered_load? hload))

/-! ### Configurations -/

section Lists
variable {α β : Type} (f : α → Option β) (front behind : List α) {a b : α}

theorem findSome?_skip (h : f a = none) : (front ++ a :: behind).findSome? f = (front ++ behind).findSome? f := by
  rw [List.findSome?_append, List.findSome?_append, List.findSome?_cons, h]

theorem findSome?_swap (h : f a = none ∨ f b = none) :
    (front ++ a :: b :: behind).findSome? f = (front ++ b :: a :: behind).findSome? f := by
  rw [List.findSome?_append, List.findSome?_append]
  rcases h with h | h <;> simp [List.findSome?_cons, h]

end Lists

section Load
variable {tree : FileTree} {sources : Sources} {config : Config}

theorem load_eq_ok_iff :
    load tree sources = .ok config ↔
      ∃ merged, mergeFiles tree (sources.files tree) [] = .ok merged ∧ ofMembers merged = .ok config := by
  simp only [load_eq, bind_eq_ok_iff, mapError_eq_ok_iff]

/-- Each field is what the first file says that sets it, or what it is by default. -/
theorem value?_of_load (hload : load tree sources = .ok config) (htyped : AllTyped tree (sources.files tree)) :
    ∀ field ∈ fields, config.value? field =
      ((precedence tree sources).findSome? (setBy? tree field)).or (({} : Config).value? field) := by
  intro field hfield
  obtain ⟨merged, hmerged, hof⟩ := load_eq_ok_iff.mp hload
  have hunion := union_of_mergeFiles htyped ordered_empty wellTyped_nil hmerged
  have hempty : ∀ field ∈ fields, at? field (.table []) = none := by
    intro field hfield
    rcases field_cases hfield with ⟨key, rfl⟩ | ⟨s, -, key, -, rfl⟩ <;> rfl
  rw [value?_of_ofMembers hunion.typed hunion.ordered hof field hfield, hunion.field field hfield, hempty field hfield,
    Option.or_none, reverse_files]

/-- Files that set different fields may be exchanged. -/
theorem load_swap (hload : load tree sources = .ok config) (htyped : AllTyped tree (sources.files tree))
    {front behind : List String} {a b : String} (hnamed : sources.named = front ++ a :: b :: behind)
    (hset : ∀ field ∈ fields, setBy? tree field a = none ∨ setBy? tree field b = none) :
    load tree { sources with named := front ++ b :: a :: behind } = .ok config := by
  let swapped : Sources := { sources with named := front ++ b :: a :: behind }
  obtain ⟨merged, hmerged, hof⟩ := load_eq_ok_iff.mp hload
  have hfiles : (swapped.files tree).Perm (sources.files tree) := by
    rw [Sources.files, Sources.files, hnamed]
    exact ((List.Perm.swap a b behind).append_left front).append_left _
  have htyped' : AllTyped tree (swapped.files tree) := fun path hpath => htyped path (hfiles.mem_iff.mp hpath)
  have hloaded := exists_mergeFiles_iff.mp ⟨merged, hmerged⟩
  obtain ⟨merged', hmerged'⟩ := exists_mergeFiles_iff.mpr fun path hpath => hloaded path (hfiles.mem_iff.mp hpath)
  have hunion := union_of_mergeFiles htyped ordered_empty wellTyped_nil hmerged
  have hunion' := union_of_mergeFiles htyped' ordered_empty wellTyped_nil hmerged'
  have hsame : ofMembers merged' = ofMembers merged := by
    refine ofMembers_congr hunion'.typed hunion.typed hunion'.ordered hunion.ordered (fun field hfield => ?_)
      fun s _ => ?_
    · have hfirst : (swapped.files tree).reverse.findSome? (setBy? tree field) =
          (sources.files tree).reverse.findSome? (setBy? tree field) := by
        rw [reverse_files, reverse_files, precedence, precedence, hnamed]
        simp only [swapped, List.reverse_append, List.reverse_cons, List.append_assoc, List.singleton_append]
        exact findSome?_swap _ _ _ (hset field hfield)
      rw [hunion'.field field hfield, hunion.field field hfield, hfirst]
    · rw [hunion'.opens, hunion.opens, hfiles.any_eq]
  exact load_eq_ok_iff.mpr ⟨merged', hmerged', hsame.trans hof⟩

/-- **Configuration files override each other field by field.** Each field is what the first file says that sets it, in the
order of precedence, or what it is by default. So a file that does not set a field leaves it to the others, and two files
that are named one after the other and set different fields may be exchanged. -/
theorem load_layers (hload : load tree sources = .ok config) (htyped : AllTyped tree (sources.files tree)) :
    (∀ field ∈ fields, config.value? field =
      ((precedence tree sources).findSome? (setBy? tree field)).or (({} : Config).value? field)) ∧
    (∀ field ∈ fields, ∀ front path behind, precedence tree sources = front ++ path :: behind →
      setBy? tree field path = none →
      config.value? field = ((front ++ behind).findSome? (setBy? tree field)).or (({} : Config).value? field)) ∧
    ∀ front a b behind, sources.named = front ++ a :: b :: behind →
      (∀ field ∈ fields, setBy? tree field a = none ∨ setBy? tree field b = none) →
      load tree { sources with named := front ++ b :: a :: behind } = .ok config := by
  have hvalue := value?_of_load hload htyped
  refine ⟨hvalue, ?_, fun front a b behind hnamed hset => load_swap hload htyped hnamed hset⟩
  intro field hfield front path behind hprecedence hnone
  rw [hvalue field hfield, hprecedence, findSome?_skip _ _ _ hnone]

/-- A user's file, a project's file in another notation and two that are named, which all set fields of one section. -/
theorem load_layers_four :
    let tree : FileTree := ⟨[(["u"], .directory), (["w"], .directory),
      (["u", "config.toml"], .file (.text "log_level = \"debug\"\n[commit]\nenabled = true\nmessage = \"u\"\n")),
      (["w", "nudge.yaml"], .file (.text "target:\n  file: a.json\ncommit:\n  message: w\n")),
      (["a.json"], .file (.text "\x7b\"commit\": \x7b\"username\": \"a\", \"other\": [null]\x7d\x7d")),
      (["b.toml"], .file (.text "commit.message = \"b\"\ntarget.key = \"v\"\n"))]⟩
    let config : Config := ⟨.debug, none, some ⟨some "a.json", some "v"⟩, none, none, none,
      some ⟨some true, some "b", some "a", none⟩⟩
    load tree ⟨some "/u", some "/w", none, ["/a.json", "/b.toml"]⟩ = .ok config ∧
      load tree ⟨some "/u", some "/w", none, ["/b.toml", "/a.json"]⟩ = .ok config := by
  intro tree config
  have hload : load tree ⟨some "/u", some "/w", none, ["/a.json", "/b.toml"]⟩ = .ok config := by decide +kernel
  obtain ⟨-, -, hswap⟩ := load_layers hload (by decide +kernel)
  exact ⟨hload, hswap [] "/a.json" "/b.toml" [] rfl (by decide +kernel)⟩

end Load

end Config
end ManifestBump

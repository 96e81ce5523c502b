import ManifestBump.Config.Basic
import ManifestBump.Document

/-! Configuration read from a document.

Members are looked at in order of their keys, and the first one that does not fit is reported with
the way to it. Members with other names are of no concern. -/
namespace ManifestBump.Config

/-! ### Misfits -/

/-- Why a value does not fit. -/
inductive Misfit.Kind where
  | wrongType
  | unknownLevel
  | tooShort
deriving DecidableEq, Repr

/-- A value that does not fit, and the keys that lead to it. -/
structure Misfit where
  kind : Misfit.Kind
  path : List String
deriving DecidableEq, Repr

/-- Reads something from a document. -/
abbrev Decoder (α : Type) := Document → Except Misfit α

/-- Reads a value at a key. -/
def Decoder.under {α : Type} (decode : Decoder α) (key : String) : Decoder α := fun d =>
  (decode d).mapError fun m => { m with path := key :: m.path }

/-! ### Values -/

/-- A value that may be null. -/
def decodeOptional {α : Type} (decode : Decoder α) : Decoder (Option α)
  | .null => .ok none
  | d => (decode d).map some

/-- A text. -/
def decodeText : Decoder String
  | .text s => .ok s
  | _ => .error ⟨.wrongType, []⟩

/-- A truth value. -/
def decodeBool : Decoder Bool
  | .bool b => .ok b
  | _ => .error ⟨.wrongType, []⟩

/-- A log level: its name, or a table whose first key is its name and has no value. -/
def decodeLogLevel : Decoder LogLevel
  | .text name => level name
  | .table ((name, value) :: _) =>
    match level name, value with
    | .ok l, .null => .ok l
    | .ok _, _ => .error ⟨.wrongType, [name]⟩
    | .error m, _ => .error m
  | _ => .error ⟨.wrongType, []⟩
where
  /-- The level of a name. -/
  level (name : String) : Except Misfit LogLevel :=
    match LogLevel.ofText? name with
    | some l => .ok l
    | none => .error ⟨.unknownLevel, []⟩

/-! ### Sections -/

/-- A setting: its key, and how its value changes what is known so far. -/
structure Setting (σ : Type) where
  key : String
  read : Document → σ → Except Misfit σ

/-- A setting whose value is stored. -/
def Setting.of {σ α : Type} (key : String) (decode : Decoder α) (store : α → σ → σ) : Setting σ :=
  ⟨key, fun d s => (decode d).map (store · s)⟩

/-- The settings after a value has been read for one of them. -/
def Setting.apply {σ : Type} (setting : Setting σ) (key : String) (d : Document) (s : σ) :
    Except Misfit σ :=
  Decoder.under (setting.read · s) key d

/-- Reads the members of a table. -/
def decodeMembers {σ : Type} (settings : List (Setting σ)) :
    List (String × Document) → σ → Except Misfit σ
  | [], s => .ok s
  | (key, d) :: members, s =>
    match settings.find? (·.key == key) with
    | none => decodeMembers settings members s
    | some setting =>
      match setting.apply key d s with
      | .ok s => decodeMembers settings members s
      | .error m => .error m

/-- Reads a list that has a value for every setting in turn, and maybe more. -/
def decodeItems {σ : Type} : (position : Nat) → List (Setting σ) → List Document → σ →
    Except Misfit σ
  | _, [], _, s => .ok s
  | _, _ :: _, [], _ => .error ⟨.tooShort, []⟩
  | n, setting :: settings, d :: ds, s =>
    match setting.apply n.repr d s with
    | .ok s => decodeItems (n + 1) settings ds s
    | .error m => .error m

/-- Reads a section, which is a table or a list of the values of all settings. -/
def decodeSection {σ : Type} (settings : List (Setting σ)) (unset : σ) : Decoder σ
  | .table members => decodeMembers settings members unset
  | .list items => decodeItems 0 settings items unset
  | _ => .error ⟨.wrongType, []⟩

/-- The section on the value to bump. -/
def decodeTarget : Decoder Target :=
  decodeSection
    [.of "file" (decodeOptional decodeText) fun v s => { s with file := v },
     .of "key" (decodeOptional decodeText) fun v s => { s with key := v }] {}

/-- The section on labels. -/
def decodeLabels : Decoder Labels :=
  decodeSection
    [.of "patch" (decodeOptional decodeText) fun v s => { s with patch := v },
     .of "minor" (decodeOptional decodeText) fun v s => { s with minor := v },
     .of "major" (decodeOptional decodeText) fun v s => { s with major := v }] {}

/-- The section on where to start from. -/
def decodeReference : Decoder Reference :=
  decodeSection
    [.of "branch" (decodeOptional decodeText) fun v s => { s with branch := v },
     .of "use_tag" (decodeOptional decodeBool) fun v s => { s with useTag := v }] {}

/-- The section on comments. -/
def decodeComment : Decoder Comment :=
  decodeSection
    [.of "enabled" (decodeOptional decodeBool) fun v s => { s with enabled := v },
     .of "message" (decodeOptional decodeText) fun v s => { s with message := v }] {}

/-- The section on commits. -/
def decodeCommit : Decoder Commit :=
  decodeSection
    [.of "enabled" (decodeOptional decodeBool) fun v s => { s with enabled := v },
     .of "message" (decodeOptional decodeText) fun v s => { s with message := v },
     .of "username" (decodeOptional decodeText) fun v s => { s with username := v },
     .of "email" (decodeOptional decodeText) fun v s => { s with email := v }] {}

/-- The settings and sections of a whole configuration. -/
def settings : List (Setting Config) :=
  [.of "log_level" decodeLogLevel fun v c => { c with logLevel := v },
   .of "log_dir" (decodeOptional decodeText) fun v c => { c with logDir := v },
   .of "target" (decodeOptional decodeTarget) fun v c => { c with target := v },
   .of "labels" (decodeOptional decodeLabels) fun v c => { c with labels := v },
   .of "reference" (decodeOptional decodeReference) fun v c => { c with reference := v },
   .of "comment" (decodeOptional decodeComment) fun v c => { c with comment := v },
   .of "commit" (decodeOptional decodeCommit) fun v c => { c with commit := v }]

/-- The configuration that the members of a table say. -/
def ofMembers (members : List (String × Document)) : Except Misfit Config :=
  decodeMembers settings members {}

end ManifestBump.Config

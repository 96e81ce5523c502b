import ManifestBump.CommandLine.Bump
import ManifestBump.Config.Discovery

/-! The command that tells about the program, its configuration and the manifest. -/
namespace ManifestBump.CommandLine
open Notation.Json

/-! ### The program -/

/-- The name of the program. -/
def programName : String := "nudge"

/-- The version of the program. -/
def programVersion : String := "0.1.0"

/-- What the program is for. -/
def programDescription : String := "Label-driven version bumps that edit manifests in place"

/-- Where the program is developed. -/
def programHome : String := "https://github.com/nudge-rs/nudge"

/-- The terms the program may be used under. -/
def programTerms : String := "Apache-2.0 OR MIT"

/-! ### The manifest -/

/-- What is known of the configured manifest. -/
structure TargetState where
  file : String
  format : Option Format
  version : Except ManifestError String

/-- Looks into the configured manifest. -/
def TargetState.inspect? (s : Session) (c : Config) : Option TargetState :=
  c.targetFile?.map fun file =>
    match Manifest.load s.tree (s.absolute file) with
    | .ok m => ⟨file, some m.format, m.get c.targetKey⟩
    | .error e => ⟨file, none, .error e⟩

/-- The manifest as an object. -/
def TargetState.tree (t : TargetState) : Tree :=
  .object
    ([("file", .text t.file)]
      ++ t.format.toList.map (fun f => ("format", .text f.text))
      ++ match t.version with
        | .ok version => [("version", .text version)]
        | .error e => [("error", .text e.message)])

/-- A name and what it stands for, on a line. -/
def entryLine (name value : String) : String := Style.dimmed name ++ ": " ++ value

/-- A remark on a line of its own. -/
def remarkLine (remark : String) : String :=
  "  " ++ Style.yellow "○" ++ " " ++ Style.yellow remark

/-- The manifest in words. -/
def targetLines : Option TargetState → List String
  | none => [remarkLine "No target file configured"]
  | some t =>
    entryLine "File" (Style.cyan t.file) ::
      match t.version with
      | .ok version =>
        t.format.toList.map (fun f => entryLine "Format" f.text)
          ++ [entryLine "Version" (Style.bold (Style.green version))]
      | .error e => ["  " ++ Style.red "✗" ++ " " ++ Style.red e.message]

/-! ### The configuration -/

/-- Where the version to start from comes from. -/
def referenceText (c : Config) : String :=
  if c.usesTag then "latest tag" else "branch " ++ c.referenceBranch

/-- The configuration as an object. -/
def configTree (found : Option String) (c : Config) : Tree :=
  .object
    (found.toList.map (fun path => ("config_file", .text path))
      ++ [("log_level", .text c.logLevel.text)]
      ++ c.logDir.toList.map (fun directory => ("log_dir", .text directory))
      ++ [("key", .text c.targetKey), ("reference", .text (referenceText c)),
        ("labels", .list (c.labelSet.names.map .text)), ("commit", .bool c.commits),
        ("comment", .bool c.comments)])

/-- How a switched setting is told. -/
def onOff (enabled : Bool) : String := if enabled then "on" else "off"

/-- The configuration in words. -/
def configLines (found : Option String) (c : Config) : List String :=
  [entryLine "Config file" ((found.map Style.cyan).getD (Style.yellow "none loaded")),
    entryLine "Log level" c.logLevel.text]
    ++ c.logDir.toList.map (entryLine "Log directory")
    ++ [entryLine "Version key" c.targetKey,
      entryLine "Reference" (referenceText c),
      entryLine "Labels" (", ".intercalate c.labelSet.names),
      entryLine "Outputs" ("commit " ++ onOff c.commits ++ ", comment " ++ onOff c.comments)]

/-! ### The command -/

/-- A heading. -/
def heading (text : String) : String := Style.underline (Style.bold text)

/-- Everything in words. -/
def infoLines (found : Option String) (c : Config) (inRepository : Bool)
    (target : Option TargetState) : List String :=
  [Style.bold programName ++ " " ++ Style.green programVersion,
    programDescription,
    entryLine "License" programTerms,
    entryLine "Repository" (Style.cyan programHome),
    "",
    heading "Configuration"]
    ++ configLines found c
    ++ ["", heading "Target"]
    ++ (if inRepository then []
      else [remarkLine "Not a git repository; bumps use the local version as reference"])
    ++ targetLines target

/-- Everything as an object. -/
def infoTree (found : Option String) (c : Config) (inRepository : Bool)
    (target : Option TargetState) : Tree :=
  .object
    ([("name", .text programName), ("version", .text programVersion),
      ("description", .text programDescription), ("repository", .text programHome),
      ("license", .text programTerms), ("config", configTree found c),
      ("git_repository", .bool inRepository)]
      ++ target.toList.map fun t => ("target", t.tree))

/-- Tells about the program, its configuration and the manifest. -/
def info (s : Session) (json : Bool) (c : Config) : Reply :=
  let found := Config.findProject? s.tree (some Config.standardMarker) s.directory
  let inRepository := (Checkout.mk s.directory {}).isInside s.tree s.repository
  let target := TargetState.inspect? s c
  s.done (if json then (infoTree found c inRepository target).pretty ++ "\n"
    else joinLines (infoLines found c inRepository target))

end ManifestBump.CommandLine

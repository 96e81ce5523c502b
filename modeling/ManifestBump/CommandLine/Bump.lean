import ManifestBump.Bump.StepOutput
import ManifestBump.CommandLine.Invocation
import ManifestBump.CommandLine.Session
import ManifestBump.CommandLine.Style
import ManifestBump.Config.Basic
import ManifestBump.Notation.Json.Pretty

/-! The command that bumps a version. -/
namespace ManifestBump.CommandLine
open Notation.Json

/-! ### What to do -/

/-- A configuration with what the command line says put over it. -/
def BumpArguments.override (a : BumpArguments) (c : Config) : Config :=
  let target := c.target.getD {}
  let reference := c.reference.getD {}
  { c with
    target :=
      if a.file.isSome || a.key.isSome then
        some ⟨a.file <|> target.file, a.key <|> target.key⟩
      else c.target
    reference :=
      if a.referenceBranch.isSome || a.useTag then
        some ⟨a.referenceBranch <|> reference.branch,
          if a.useTag then some true else reference.useTag⟩
      else c.reference
    commit := if a.commit then some { c.commit.getD {} with enabled := some true } else c.commit
    comment :=
      if a.comment then some { c.comment.getD {} with enabled := some true } else c.comment }

/-- The labels and the head branch of the pull request. The event is read only for what the
command line does not say. -/
def pullRequest (s : Session) (a : BumpArguments) :
    Except Failure (List String × Option String) :=
  match a.event <|> s.eventFile.filter (!·.isEmpty) with
  | none => .ok (a.labels, a.head)
  | some path =>
    if a.labels.isEmpty || a.head.isNone then
      match Event.load s.tree (s.absolute path) with
      | .error e => .error ⟨"failed to read pull request event " ++ path, eventCauses e⟩
      | .ok event =>
        .ok (if a.labels.isEmpty then event.labels else a.labels, some (a.head.getD event.head))
    else .ok (a.labels, a.head)

/-! ### What is told -/

/-- An outcome as an object. -/
def outcomeTree (o : Outcome) : Tree :=
  .object
    [("previous", .text o.previous), ("version", .text o.version),
     ("has_changed", .bool o.hasChanged), ("level", .text o.level.text), ("file", .text o.file),
     ("key", .text o.key), ("commit", .ofOption o.commit), ("comment", .ofOption o.comment),
     ("dry_run", .bool o.dryRun)]

/-- An outcome in words. -/
def outcomeLines (o : Outcome) : List String :=
  if o.hasChanged then
    [Style.bold "Version" ++ ": " ++ Style.dimmed o.previous ++ " → "
        ++ Style.bold (Style.green o.version) ++ " (" ++ o.level.text ++ ")",
      Style.dimmed "File" ++ ": " ++ Style.cyan o.file ++ " [" ++ o.key ++ "]"]
      ++ if o.dryRun then ["", Style.yellow "Dry run, no changes made."]
        else
          ["  " ++ Style.green "✓" ++ " Manifest updated"]
            ++ o.commit.toList.map (fun commit =>
              "  " ++ Style.green "✓" ++ " Committed " ++ Style.dimmed commit)
            ++ (o.comment.toList.flatMap fun comment => ["", comment])
  else
    [Style.yellow "○" ++ " " ++ Style.cyan o.file ++ " is already "
        ++ Style.bold (Style.green o.version),
      Style.dimmed "Version already updated. Skipping."]

/-- Some lines, each with its end. -/
def joinLines (lines : List String) : String := String.join (lines.map (· ++ "\n"))

/-- What is printed for the pull request when its labels will not do and comments are wanted. -/
def labelHint (config : Config) (json : Bool) (e : BumpError) : String :=
  match e.comment? with
  | some comment =>
    if config.comments then
      if json then
        (Tree.object [("comment", .text comment), ("error", .text e.message)]).pretty ++ "\n"
      else comment ++ "\n"
    else ""
  | none => ""

/-! ### The command -/

/-- Adds what later steps may use to the file for it, if there is one. -/
def writeStepOutputs (s : Session) (o : Outcome) : Except Failure Session :=
  match s.outputFile.filter (!·.isEmpty) with
  | none => .ok s
  | some path =>
    match s.tree.append (s.absolute path) o.stepOutputText with
    | .ok tree => .ok { s with tree }
    | .error fault => .error ⟨"failed to open step output file " ++ path, [fault.message]⟩

/-- Bumps the version that the configuration and the command line name. -/
def bump (s : Session) (json : Bool) (config : Config) (a : BumpArguments) : Reply :=
  let config := a.override config
  match pullRequest s a with
  | .error f => ⟨s, "", some f⟩
  | .ok (labels, head) =>
    let checkout : Checkout :=
      ⟨s.directory, ⟨config.commit.bind (·.username), config.commit.bind (·.email)⟩⟩
    match Plan.make s.tree s.directory config labels (checkout.source s.tree s.repository) with
    | .error e => s.failed "bump planning failed" (bumpCauses e) (labelHint config json e)
    | .ok plan =>
      let done := plan.execute s.directory ⟨a.dryRun, head⟩ (some checkout.sink) s.tree s.repository
      let s := { s with tree := done.tree, repository := done.state }
      match done.result with
      | .error e => s.failed "bump failed" (bumpCauses e)
      | .ok outcome =>
        match writeStepOutputs s outcome with
        | .error f => ⟨s, "", some f⟩
        | .ok s =>
          s.done (if json then (outcomeTree outcome).pretty ++ "\n"
            else joinLines (outcomeLines outcome))

end ManifestBump.CommandLine

import ManifestBump.CommandLine.Edit
import ManifestBump.CommandLine.Info
import ManifestBump.Config.Load

/-! Running a command line: from its words to what is printed and how it ends. -/
namespace ManifestBump.CommandLine

/-- How a run ends. -/
structure Ending where
  /-- The exit code: 0 for success, 1 for an error, 2 for a command line that makes no sense. -/
  code : Nat
  output : String
  errors : String
  session : Session

/-- What is printed for help, and where a command line makes no sense. -/
def usage : String := joinLines
  ["Usage: " ++ programName ++ " [OPTIONS] <COMMAND>",
    "",
    "Commands:",
    "  get <FILE> <KEY>          Print the value at a dotted key path",
    "  set <FILE> <KEY> <VALUE>  Replace the value at a dotted key path in place",
    "  bump                      Bump the configured version from pull request labels",
    "  info                      Show package, configuration and target file information"]

/-- Runs a command with the configuration that is in force. -/
def perform (s : Session) (json : Bool) (config : Config) : Command → Reply
  | .get file key => get s json file key
  | .set file key value dryRun => set s json file key value dryRun
  | .bump arguments => bump s json config arguments
  | .info => info s json config

/-- Runs a command in the directory it is for. The configuration has to be sound even where a
command does not use it. -/
def invoke (s : Session) (i : Invocation) : Reply :=
  let entered : Except Failure Session :=
    match i.chdir with
    | none => .ok s
    | some directory =>
      (s.enter directory).mapError fun fault =>
        ⟨"failed to change directory to " ++ directory, [fault.message]⟩
  match entered with
  | .error f => ⟨s, "", some f⟩
  | .ok s =>
    let sources : Config.Sources :=
      { user := s.userDirectory
        search := some s.directory
        named := i.config.toList.map s.absolute }
    match Config.load s.tree sources with
    | .error e => s.failed "failed to load configuration" [e.message]
    | .ok config => perform s i.json config i.command

/-- Runs a command line. -/
def run (s : Session) (words : List String) : Ending :=
  match Request.ofWords words with
  | .misuse => ⟨2, "", usage, s⟩
  | .help => ⟨0, usage, "", s⟩
  | .version => ⟨0, programName ++ " " ++ programVersion ++ "\n", "", s⟩
  | .invoke i =>
    let reply := invoke s i
    match reply.failure with
    | none => ⟨0, reply.output, "", reply.session⟩
    | some f => ⟨1, reply.output, f.report, reply.session⟩

end ManifestBump.CommandLine

import ManifestBump.Bump.Plan
import ManifestBump.Event

/-! What is told when a command fails: what could not be done, and then why, from the outermost
cause to the innermost. -/
namespace ManifestBump.CommandLine

/-- A failed command. -/
structure Failure where
  summary : String
  causes : List String
deriving DecidableEq, Repr

namespace Failure

/-- A text whose lines behind the first are indented. -/
def hang (indentation text : String) : String :=
  ("\n" ++ indentation).intercalate ((text.toList.splitOn '\n').map String.ofList)

/-- A number in five columns. -/
def numberColumn (n : Nat) : String :=
  String.ofList (List.replicate (5 - n.repr.length) ' ') ++ n.repr

/-- The causes, each on lines of its own. Only several causes are numbered. -/
def causeLines (f : Failure) : List String :=
  match f.causes with
  | [] => []
  | [cause] => ["    " ++ hang "    " cause]
  | causes => (List.range causes.length).zip causes |>.map fun (n, cause) =>
      numberColumn n ++ ": " ++ hang "       " cause

/-- The whole report. -/
def report (f : Failure) : String :=
  "Error: " ++ f.summary
    ++ (if f.causes.isEmpty then "" else "\n\nCaused by:\n" ++ "\n".intercalate f.causeLines)
    ++ "\n"

end Failure

/-! ### Causes -/

/-- An error on a manifest, and what caused it. -/
def manifestCauses (e : ManifestError) : List String :=
  match e with
  | .io _ fault => [e.message, fault.message]
  | _ => [e.message]

/-- An error on a version, and what caused it. -/
def versionCauses (e : VersionError) : List String :=
  match e with
  | .invalid _ fault => [e.message, fault.message]
  | .overflow _ _ => [e.message]

/-- An error on a remote, and what caused it. -/
def remoteCauses (e : RemoteError) : List String :=
  match e with
  | .io _ fault => [e.message, fault.message]
  | _ => [e.message]

/-- An error on a bump, and what caused it. -/
def bumpCauses (e : BumpError) : List String :=
  match e with
  | .noTargetFile => [e.message]
  | .manifest _ inner => e.message :: manifestCauses inner
  | .version inner => versionCauses inner
  | .labels _ => [e.message]
  | .remote inner => remoteCauses inner

/-- An error on an event, and what caused it. -/
def eventCauses : EventError → List String
  | .io path fault => [path ++ ": " ++ fault.message, fault.message]
  | .unreadable path _ => [path ++ " is not a pull request event"]

end ManifestBump.CommandLine

import ManifestBump.CommandLine.Failure
import ManifestBump.Remote.Checkout

/-! What a command works on, and what it leaves behind. -/
namespace ManifestBump.CommandLine

/-- Files, the repository among them, and what the environment says. -/
structure Session where
  tree : FileTree
  repository : Option Repository
  /-- The directory the command works in, as an absolute path. -/
  directory : String
  /-- The directory of the user's configuration. -/
  userDirectory : Option String := none
  /-- The file of the event that started the job. -/
  eventFile : Option String := none
  /-- The file that takes what later steps of the job may use. -/
  outputFile : Option String := none

namespace Session

/-- A path seen from the directory. -/
def absolute (s : Session) (path : String) : String := Path.join s.directory path

/-- The session in another directory, if there is one at the path. -/
def enter (s : Session) (path : String) : Except FileFault Session :=
  match s.tree.resolve (s.absolute path) with
  | .error fault => .error fault
  | .ok place =>
    match s.tree.entryAt? place with
    | none => .error .notFound
    | some (.file _) => .error .notDirectory
    | some .directory => .ok { s with directory := "/" ++ "/".intercalate place }

end Session

/-- What a command comes to: the session behind it, what it has printed, and why it failed, if it
did. -/
structure Reply where
  session : Session
  output : String := ""
  failure : Option Failure := none

/-- The reply of a command that printed something. -/
def Session.done (s : Session) (output : String) : Reply := ⟨s, output, none⟩

/-- The reply of a command that failed. -/
def Session.failed (s : Session) (summary : String) (causes : List String)
    (output : String := "") : Reply :=
  ⟨s, output, some ⟨summary, causes⟩⟩

end ManifestBump.CommandLine

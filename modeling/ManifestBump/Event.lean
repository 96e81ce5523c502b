import ManifestBump.FileTree
import ManifestBump.Notation.Json.Record

/-! Pull request events, as runners hand them to a job: a JSON file of which only the number, the
labels and the head branch matter. -/
namespace ManifestBump

/-- What a bump takes from an event. -/
structure Event where
  number : UInt64
  labels : List String
  head : String
deriving DecidableEq, Repr

/-- Why there is no event. -/
inductive EventError where
  | io (path : String) (fault : FileFault)
  | unreadable (path : String) (fault : Notation.Json.Fault)
deriving DecidableEq, Repr

namespace Event
open Notation.Json

/-- A label, by its name. -/
def readLabel : Reader String :=
  readRecord [.of "name" readString fun name _ => some name] none id

/-- A branch, by its name. -/
def readBranch : Reader String :=
  readRecord [.of "ref" readString fun name _ => some name] none id

/-- What is known of a pull request while it is read. -/
structure Partial where
  number : Option UInt64 := none
  labels : Option (List String) := none
  head : Option String := none

/-- The whole pull request; without labels, it has none. -/
def Partial.finish (p : Partial) : Option Event := do
  return ⟨← p.number, p.labels.getD [], ← p.head⟩

/-- A pull request. -/
def readPullRequest : Reader Event :=
  readRecord
    [.of "number" readWhole fun n (p : Partial) => { p with number := some n },
     .of "labels" (readList readLabel) fun labels p => { p with labels := some labels },
     .of "head" readBranch fun head p => { p with head := some head }]
    {} Partial.finish

/-- The event a text says. -/
def parse (text : List Char) : Except Fault Event :=
  readAll (readRecord [.of "pull_request" readPullRequest fun event _ => some event] none id) text

/-- The event in a file. -/
def load (tree : FileTree) (path : String) : Except EventError Event :=
  match tree.read path with
  | .error fault => .error (.io path fault)
  | .ok text =>
    match parse text.toList with
    | .ok event => .ok event
    | .error fault => .error (.unreadable path fault)

end Event

end ManifestBump

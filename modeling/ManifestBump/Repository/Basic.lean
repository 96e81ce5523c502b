import ManifestBump.FileTree
import ManifestBump.Text.Blank

/-! Repositories: commits, the names that lead to them, and what is staged for the next one.

Commits are kept in the order they are made and are referred to by their number. -/
namespace ManifestBump

/-- Files by the names on their paths, each once. -/
abbrev Snapshot := List (List String × Content)

namespace Snapshot

/-- Whether two snapshots have the same files. -/
def same (a b : Snapshot) : Bool :=
  a.length == b.length && a.all fun (names, content) => b.lookup names == some content

/-- The files at or below a place. -/
def below (place : List String) (s : Snapshot) : Snapshot :=
  s.filter fun f => place.isPrefixOf f.1

/-- The files neither at nor below a place. -/
def beside (place : List String) (s : Snapshot) : Snapshot :=
  s.filter fun f => !place.isPrefixOf f.1

/-- The files of one snapshot at and below a place, and those of another beside it. -/
def graft (place : List String) (onto new : Snapshot) : Snapshot :=
  beside place onto ++ below place new

end Snapshot

/-- Who makes a commit. -/
structure Identity where
  name : String
  email : String
deriving DecidableEq, Repr

/-- A state of all files, and how it came to be. -/
structure Commit where
  snapshot : Snapshot
  parent : Option Nat
  author : Identity
  message : String
deriving DecidableEq, Repr

/-- What is checked out. -/
inductive Head where
  /-- A branch, which may not have a commit yet. -/
  | branch (name : String)
  /-- A commit, on no branch. -/
  | detached (commit : Nat)
deriving DecidableEq, Repr

/-- A repository with its work tree in a directory. -/
structure Repository where
  /-- The names on the path of the directory. -/
  place : List String
  commits : List Commit
  branches : List (String × Nat)
  tags : List (String × Nat)
  head : Head
  staged : Snapshot
  identity : Identity
  /-- The text that identifies a commit, by its number. -/
  identifier : Nat → String

/-- Why a command on a repository fails. -/
inductive RepositoryError where
  /-- There is no repository around the directory. -/
  | outside
  /-- The command itself fails. -/
  | failed (command report : String)
deriving DecidableEq, Repr

/-- The error in words. -/
def RepositoryError.message : RepositoryError → String
  | .outside => "not a git repository (or any parent up to mount point)"
  | .failed command report => "git " ++ command ++ " failed: " ++ report

namespace Repository

/-- The commit that is checked out, unless there is none yet. -/
def headCommit? (r : Repository) : Option Nat :=
  match r.head with
  | .branch name => r.branches.lookup name
  | .detached commit => some commit

/-- The files of a commit. -/
def snapshotOf (r : Repository) (commit : Nat) : Snapshot :=
  (r.commits[commit]?.map Commit.snapshot).getD []

/-- The files of the commit that is checked out. -/
def headSnapshot (r : Repository) : Snapshot := (r.headCommit?.map r.snapshotOf).getD []

/-- What is told where a commit is needed and there is none. -/
def unbornReport : String :=
  "fatal: ambiguous argument 'HEAD': unknown revision or path not in the working tree.\n"
    ++ "Use '--' to separate paths from revisions, like this:\n"
    ++ "'git <command> [<revision>...] -- [<file>...]'"

/-- The text that identifies the commit that is checked out. -/
def headIdentifier (r : Repository) : Except RepositoryError String :=
  match r.headCommit? with
  | some commit => .ok (r.identifier commit)
  | none => .error (.failed "rev-parse" unbornReport)

/-- The full names of what is checked out, of the branches and of the tags. -/
def fullNames (r : Repository) : List String :=
  "HEAD" :: r.branches.map (fun b => "refs/heads/" ++ b.1) ++ r.tags.map (fun t => "refs/tags/" ++ t.1)

/-- Whether a name stands for more than what has `lead` in front of it. -/
def isAmbiguous (r : Repository) (lead name : String) : Bool :=
  ["", "refs/", "refs/tags/", "refs/heads/"].any fun other =>
    other != lead && r.fullNames.contains (other ++ name)

/-- The shortest name of a branch that stands for nothing else. -/
def shortName (r : Repository) (branch : String) : String :=
  if !r.isAmbiguous "refs/heads/" branch then branch
  else if !r.isAmbiguous "refs/" ("heads/" ++ branch) then "heads/" ++ branch
  else "refs/heads/" ++ branch

/-- What is printed for what is checked out: a branch by its short name, and anything else as `HEAD`. -/
def printedHead (r : Repository) : Except RepositoryError String :=
  match r.headCommit?, r.head with
  | none, _ => .error (.failed "rev-parse" unbornReport)
  | some _, .detached _ => .ok "HEAD"
  | some _, .branch name => .ok (r.shortName name)

/-- The branch that is checked out, if one is, as it is printed but for white space around it. -/
def currentBranch (r : Repository) : Except RepositoryError (Option String) := do
  let name := String.ofList (Text.trim (← r.printedHead).toList)
  return if name = "HEAD" then none else some name

/-- The names of a place seen from the directory of the work tree, if it lies in there. -/
def within? (r : Repository) (names : List String) : Option (List String) :=
  if r.place.isPrefixOf names then some (names.drop r.place.length) else none

end Repository

/-- Names followed from a place, where `..` leads back but not out. -/
def Path.follow? : (place names : List String) → Option (List String)
  | place, [] => some place
  | place, name :: names =>
    if name = ".." then
      if place.isEmpty then none else follow? place.dropLast names
    else follow? (place ++ [name]) names

end ManifestBump

import ManifestBump.Remote.Basic
import ManifestBump.Repository.Commit
import ManifestBump.Repository.Revision
import ManifestBump.Version.Reader

/-! The repository around a directory, as a source and as a sink.

A delivery is accepted only for the branch that is checked out. What the repository does not know
is simply not found, but a delivery needs a repository. -/
namespace ManifestBump

/-- A directory in a work tree, and who commits from there. -/
structure Checkout where
  root : String
  committer : Repository.IdentityOverride := {}
deriving DecidableEq, Repr

namespace Checkout

/-- The repository around the directory, and the place of the directory in its work tree. -/
def locate (c : Checkout) (tree : FileTree) (repository : Option Repository) :
    Except RepositoryError (Repository × List String) :=
  match repository, tree.resolve c.root with
  | some r, .ok names =>
    match r.within? names with
    | some here => .ok (r, here)
    | none => .error .outside
  | _, _ => .error .outside

/-- Whether there is a repository around the directory. -/
def isInside (c : Checkout) (tree : FileTree) (repository : Option Repository) : Bool :=
  (c.locate tree repository).toBool

/-! ### Reading -/

/-- A file at a reference. -/
def fileAt (c : Checkout) (tree : FileTree) (repository : Option Repository)
    (reference path : String) : Except RepositoryError String := do
  let (r, here) ← c.locate tree repository
  r.fileAt here reference path

/-- The names of all tags as they are listed, those of later versions first. -/
def tags (c : Checkout) (tree : FileTree) (repository : Option Repository) :
    Except RepositoryError (List String) := do
  let (r, _) ← c.locate tree repository
  return r.listedTags

/-- The first tag that is a version. Outside of repositories there is none. -/
def latestTag (c : Checkout) (tree : FileTree) (repository : Option Repository) :
    Except RemoteError (Option String) :=
  match c.tags tree repository with
  | .ok tags => .ok (tags.find? fun tag => (Release.parse tag).toBool)
  | .error .outside => .ok none
  | .error e => .error (.repository e)

/-- A file at a reference, where whatever fails means that it is not there. -/
def fetch (c : Checkout) (tree : FileTree) (repository : Option Repository)
    (path reference : String) : Except RemoteError String :=
  match c.fileAt tree repository reference path with
  | .ok text => .ok text
  | .error _ => .error (.notFound path reference)

/-- The directory as a source. -/
def source (c : Checkout) (tree : FileTree) (repository : Option Repository) : Source :=
  ⟨c.fetch tree repository, c.latestTag tree repository⟩

/-! ### Handing over -/

/-- The branch that is checked out. -/
def currentBranch (c : Checkout) (tree : FileTree) (repository : Option Repository) :
    Except RepositoryError (Option String) := do
  let (r, _) ← c.locate tree repository
  r.currentBranch

/-- The text that identifies the commit that is checked out. -/
def headIdentifier (c : Checkout) (tree : FileTree) (repository : Option Repository) :
    Except RepositoryError String := do
  let (r, _) ← c.locate tree repository
  r.headIdentifier

/-- Commits what stands at a path. -/
def commitFile (c : Checkout) (tree : FileTree) (repository : Option Repository)
    (path message : String) : Option Repository × Except RepositoryError Unit :=
  match c.locate tree repository with
  | .error e => (repository, .error e)
  | .ok (r, here) =>
    let (r, result) := r.commitFile tree here path message c.committer
    (some r, result)

/-- Whether a delivery is for what is checked out, which is called `HEAD` when it is no branch. -/
def checkBranch (c : Checkout) (tree : FileTree) (repository : Option Repository)
    (reference : String) : Except RemoteError Unit :=
  match c.currentBranch tree repository with
  | .error e => .error (.repository e)
  | .ok branch =>
    let actual := branch.getD "HEAD"
    if actual = reference then .ok () else .error (.branchMismatch reference actual)

/-- Writes a delivery to its path and commits it. -/
def persist (c : Checkout) (tree : FileTree) (repository : Option Repository) (d : Delivery) :
    Receipt (Option Repository) :=
  match c.checkBranch tree repository d.reference with
  | .error e => ⟨tree, repository, .error e⟩
  | .ok () =>
    let path := Path.join c.root d.path
    match tree.write path d.content with
    | .error fault => ⟨tree, repository, .error (.io path fault)⟩
    | .ok tree =>
      match c.commitFile tree repository d.path d.message with
      | (repository, .error e) => ⟨tree, repository, .error (.repository e)⟩
      | (repository, .ok ()) =>
        ⟨tree, repository, (c.headIdentifier tree repository).mapError .repository⟩

/-- The directory as a sink. -/
def sink (c : Checkout) : Sink (Option Repository) := ⟨c.persist⟩

end Checkout

end ManifestBump

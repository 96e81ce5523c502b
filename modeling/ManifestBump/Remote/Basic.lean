import ManifestBump.Repository.Basic

/-! Where a version to start from is read, and where an edited manifest is handed over.

Both are values that a bump is given, so a bump does not know whether a repository stands behind
them. -/
namespace ManifestBump

/-- Why nothing can be read or handed over. -/
inductive RemoteError where
  | notFound (path reference : String)
  /-- Another branch than the one named is checked out. -/
  | branchMismatch (expected actual : String)
  | repository (e : RepositoryError)
  | io (path : String) (fault : FileFault)
deriving DecidableEq, Repr

/-- The error in words. -/
def RemoteError.message : RemoteError → String
  | .notFound path reference => path ++ " not found at " ++ reference
  | .branchMismatch expected actual =>
    "cannot commit to " ++ expected ++ ": the checked-out branch is " ++ actual
  | .repository e => e.message
  | .io path fault => path ++ ": " ++ fault.message

/-- Where files are read at a reference, and where the latest version tag comes from. -/
structure Source where
  fetch : (path reference : String) → Except RemoteError String
  latestTag : Except RemoteError (Option String)

/-- An edited file that is to be committed to a branch. -/
structure Delivery where
  path : String
  reference : String
  content : String
  message : String
deriving DecidableEq, Repr

/-- What a delivery comes to: the files and the state of the sink behind it, and the text that
identifies the commit. -/
structure Receipt (σ : Type) where
  tree : FileTree
  state : σ
  result : Except RemoteError String

/-- Takes deliveries, with a state of type `σ`. -/
structure Sink (σ : Type) where
  accept : FileTree → σ → Delivery → Receipt σ

/-- A sink that leaves all files alone. -/
def Sink.InMemory {σ : Type} (sink : Sink σ) : Prop :=
  ∀ tree state delivery, (sink.accept tree state delivery).tree = tree

end ManifestBump

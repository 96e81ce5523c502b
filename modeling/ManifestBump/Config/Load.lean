import ManifestBump.Config.Decode
import ManifestBump.Config.Discovery
import ManifestBump.Notation.Basic

/-! Configuration put together from files.

Later files override earlier ones, member by member, and all of them the configuration by default:
first the user's file, then the project's, then those that are named. A file that cannot be read or
says no table spoils the whole, even if others override all of it. -/
namespace ManifestBump

/-- Why there is no configuration. -/
inductive ConfigError where
  /-- No file was found, and one is needed. -/
  | notFound
  /-- A file is not there, not well formed or no table. -/
  | unreadable (path : String)
  | misfit (m : Config.Misfit)
deriving DecidableEq, Repr

namespace Config

/-- Where configuration comes from. -/
structure Sources where
  /-- The directory of the user's file. -/
  user : Option String := none
  /-- The directory from which the project's file is searched. -/
  search : Option String := none
  marker : Option String := some standardMarker
  /-- Files named one by one. -/
  named : List String := []

namespace Sources

/-- The user's file, if it is wanted and there. -/
def userFile? (s : Sources) (tree : FileTree) : Option String := s.user.bind (findUser? tree)

/-- The project's file, if it is wanted and there. -/
def projectFile? (s : Sources) (tree : FileTree) : Option String :=
  s.search.bind (findProject? tree s.marker)

/-- All files, the ones overridden first. -/
def files (s : Sources) (tree : FileTree) : List String :=
  (s.userFile? tree).toList ++ (s.projectFile? tree).toList ++ s.named

end Sources

/-- The members of all files, one over the other. -/
def mergeFiles (tree : FileTree) :
    List String → List (String × Document) → Except ConfigError (List (String × Document))
  | [], members => .ok members
  | path :: paths, members =>
    match Notation.load? tree path with
    | some later => mergeFiles tree paths (Document.mergeMembers members later)
    | none => .error (.unreadable path)

/-- The members of the configuration by default. What is not set is there, and null. -/
def standardMembers : List (String × Document) :=
  [("comment", .null), ("commit", .null), ("labels", .null), ("log_dir", .null),
   ("log_level", .text ({} : Config).logLevel.text), ("reference", .null), ("target", .null)]

/-- The configuration that the files say together, over the one by default. -/
def load (tree : FileTree) (sources : Sources) : Except ConfigError Config := do
  let members ← mergeFiles tree (sources.files tree) standardMembers
  (ofMembers members).mapError .misfit

/-- The same, when there has to be at least one file. -/
def loadSome (tree : FileTree) (sources : Sources) : Except ConfigError Config :=
  if (sources.files tree).isEmpty then .error .notFound else load tree sources

end Config

/-- The error in words, where there is one wording for it. -/
def ConfigError.message : ConfigError → String
  | .notFound => "no configuration file found"
  | .unreadable path => "invalid configuration: " ++ path
  | .misfit m => "invalid configuration: " ++ ".".intercalate m.path

end ManifestBump

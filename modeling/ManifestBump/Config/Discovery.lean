import ManifestBump.FileTree

/-! Where configuration files are looked for.

A project's file lies in the directory one starts from or in one above it. The search goes no
further than a directory that holds a marker, such as the one of a repository. -/
namespace ManifestBump.Config

/-- The extensions of configuration files, in order of preference. -/
def extensions : List String := ["toml", "yaml", "yml", "json"]

/-- The names of a project's file, in order of preference. -/
def projectNames : List String :=
  extensions.flatMap fun extension => [".nudge." ++ extension, "nudge." ++ extension]

/-- The names of a user's file, in order of preference. -/
def userNames : List String := extensions.map ("config." ++ ·)

/-- The marker of a repository. -/
def standardMarker : String := ".git"

/-- The first of some files that lies in a directory. -/
def findIn (tree : FileTree) (names : List String) (directory : String) : Option String :=
  (names.map (Path.join directory)).find? tree.isFile

/-- A directory and those above it, the nearest first. -/
def upward (directory : String) : List String :=
  match h : Path.parent? directory with
  | none => [directory]
  | some parent =>
    have : parent.toList.length < directory.toList.length := Path.length_of_parent? h
    directory :: upward parent
termination_by directory.toList.length

/-- The directories of a list up to the first that holds the marker. -/
def upToMarker (tree : FileTree) (marker : Option String) : List String → List String
  | [] => []
  | directory :: rest =>
    if marker.any fun m => tree.exists? (Path.join directory m) then [directory]
    else directory :: upToMarker tree marker rest

/-- A project's file, seen from a directory. -/
def findProject? (tree : FileTree) (marker : Option String) (start : String) : Option String :=
  (upToMarker tree marker (upward start)).findSome? (findIn tree projectNames)

/-- A user's file in the directory for it. -/
def findUser? (tree : FileTree) (directory : String) : Option String :=
  findIn tree userNames directory

end ManifestBump.Config

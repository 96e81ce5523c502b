import ManifestBump.CommandLine.Run

/-! The program: files and settings are read from the surroundings, the command line is run on
them, and what it changed is written back.

Only files that a run may look at are read: those named on the command line or by the environment,
configuration files, and the configured manifest. Repositories are not looked into, so versions
start from the manifest itself. -/
namespace ManifestBump.Program
open CommandLine

/-! ### Reading the surroundings -/

/-- The directory of the user's configuration. -/
def userDirectory : IO (Option String) := do
  if let some directory ← IO.getEnv "XDG_CONFIG_HOME" then
    if Path.isAbsolute directory then return some (Path.join directory programName)
  return (← IO.getEnv "HOME").map fun home => Path.join home (".config/" ++ programName)

/-- What stands at the end of some names on the disk. -/
def entryAt (names : List String) : IO (Option Entry) := do
  let path := "/" ++ "/".intercalate names
  try
    if ← (← IO.FS.realPath path).isDir then return some .directory
    return some (.file (.ofBytes (← IO.FS.readBinFile path).toList))
  catch _ => return none

/-- The tree with what stands on the way along some names from a place. -/
def readAlong (tree : FileTree) (place : List String) : List String → IO FileTree
  | [] => return tree
  | name :: names => do
    if name = ".." then readAlong tree place.dropLast names
    else
      let place := place ++ [name]
      if (tree.entryAt? place).isSome then readAlong tree place names
      else
        match ← entryAt place with
        | some entry => readAlong (tree.insert place entry) place names
        | none => return tree

/-- The tree with what stands on the way along some paths. -/
def readPaths (tree : FileTree) (paths : List String) : IO FileTree :=
  paths.foldlM (fun tree path => readAlong tree [] (Path.names path)) tree

/-- The paths where configuration may be, seen from a directory. -/
def configPaths (directory : String) (user : Option String) : List String :=
  let names := Config.standardMarker :: Config.projectNames
  (Config.upward directory).flatMap (fun d => names.map (Path.join d))
    ++ user.toList.flatMap fun d => Config.userNames.map (Path.join d)

/-- The directory that a command line is for. -/
def directoryOf (s : Session) : Request → String
  | .invoke i =>
    match i.chdir with
    | some directory => s.absolute directory
    | none => s.directory
  | _ => s.directory

/-- The manifest that the configuration names. -/
def targetOf (s : Session) (config : Option String) : Option String :=
  match Config.load s.tree
      { user := s.userDirectory, search := some s.directory,
        named := config.toList.map s.absolute } with
  | .ok c => c.targetFile?
  | .error _ => none

/-- The session with all files that a request may look at. -/
def readSession (s : Session) (words : List String) : IO Session := do
  let request := Request.ofWords words
  let directory := directoryOf s request
  let seen := (words ++ s.eventFile.toList ++ s.outputFile.toList).map (Path.join directory)
  let tree ← readPaths s.tree (directory :: seen ++ configPaths directory s.userDirectory)
  let inside := { s with tree, directory }
  match request with
  | .invoke i =>
    let target := (targetOf inside i.config).toList.map inside.absolute
    return { s with tree := ← readPaths tree target }
  | _ => return { s with tree }

/-! ### Writing back -/

/-- Writes every file that differs from what was read. -/
def writeChanges (before after : FileTree) : IO Unit := do
  for (names, content) in after.filesBelow [] do
    if before.entryAt? names != some (.file content) then
      let path := "/" ++ "/".intercalate names
      match content with
      | .text text => IO.FS.writeFile path text
      | .binary bytes => IO.FS.writeBinFile path ⟨bytes.toArray⟩

end ManifestBump.Program

/-- Runs the command line of the program. -/
def main (words : List String) : IO UInt32 := do
  let s ← ManifestBump.Program.readSession
    { tree := .empty, repository := none,
      directory := (← IO.currentDir).toString,
      userDirectory := ← ManifestBump.Program.userDirectory,
      eventFile := ← IO.getEnv "GITHUB_EVENT_PATH",
      outputFile := ← IO.getEnv "GITHUB_OUTPUT" } words
  let ending := ManifestBump.CommandLine.run s words
  ManifestBump.Program.writeChanges s.tree ending.session.tree
  IO.print ending.output
  IO.eprint ending.errors
  return ending.code.toUInt32

import ManifestBump.Path

/-! File trees: what can be read from and written to, as a value.

An entry is reached by the names on its path from the root. A path is walked name by name, and
every name but the last has to be a directory on the way, so the faults are those of a real file
system. Writing gives a new tree. -/
namespace ManifestBump

/-- What a file holds: text, or bytes that are not the UTF-8 form of any. -/
inductive Content where
  | text (text : String)
  | binary (bytes : List UInt8)
deriving DecidableEq, Repr

namespace Content

/-- The content that some bytes are. -/
def ofBytes (bytes : List UInt8) : Content :=
  match String.fromUTF8? ⟨bytes.toArray⟩ with
  | some s => .text s
  | none => .binary bytes

/-- With text behind it. -/
def append (content : Content) (more : String) : Content :=
  match content with
  | .text s => .text (s ++ more)
  | .binary bytes => .binary (bytes ++ more.toUTF8.toList)

end Content

/-- A file or a directory. -/
inductive Entry where
  | directory
  | file (content : Content)
deriving DecidableEq, Repr

/-- Why a file cannot be read or written. -/
inductive FileFault where
  | notFound
  | isDirectory
  | notDirectory
  | notText
deriving DecidableEq, Repr

/-- The fault in words. -/
def FileFault.message : FileFault → String
  | .notFound => "No such file or directory (os error 2)"
  | .isDirectory => "Is a directory (os error 21)"
  | .notDirectory => "Not a directory (os error 20)"
  | .notText => "stream did not contain valid UTF-8"

/-- Entries by the names on their paths. The root is always a directory. -/
structure FileTree where
  entries : List (List String × Entry)

namespace FileTree

/-- The tree that is only a root. -/
def empty : FileTree := ⟨[]⟩

/-- The entry at the end of some names. -/
def entryAt? (tree : FileTree) (names : List String) : Option Entry :=
  if names.isEmpty then some .directory else tree.entries.lookup names

/-- The tree with another entry at the end of some names; other entries keep their order. -/
def insert (tree : FileTree) (names : List String) (entry : Entry) : FileTree :=
  if tree.entries.any (·.1 == names) then
    ⟨tree.entries.map fun e => if e.1 == names then (names, entry) else e⟩
  else ⟨tree.entries ++ [(names, entry)]⟩

/-! ### Walking a path -/

/-- Where some names lead from a place; `..` leads back. -/
def walk (tree : FileTree) (place : List String) :
    List String → Except FileFault (List String)
  | [] => .ok place
  | name :: names =>
    match tree.entryAt? place with
    | none => .error .notFound
    | some (.file _) => .error .notDirectory
    | some .directory =>
      walk tree (if name = ".." then place.dropLast else place ++ [name]) names

/-- How a path ends: with a name, with a slash behind one, or with a dot. The latter two are for
directories only. -/
inductive Ending where
  | name
  | slash
  | dot
deriving DecidableEq, Repr

/-- The ending of a path. -/
def ending (path : String) : Ending :=
  let reversed := path.toList.reverse
  match reversed.dropWhile (· == '/') with
  | ['.'] => .dot
  | '.' :: '/' :: _ => .dot
  | _ => if reversed.head? = some '/' then .slash else .name

/-- Whether a path ends like that of a directory. -/
def endsOpen (path : String) : Bool := ending path != .name

/-- Where a path leads. -/
def resolve (tree : FileTree) (path : String) : Except FileFault (List String) :=
  tree.walk [] (Path.names path)

/-- The entry a path leads to. -/
def find? (tree : FileTree) (path : String) : Option Entry :=
  match tree.resolve path with
  | .error _ => none
  | .ok place =>
    match tree.entryAt? place with
    | some (.file content) => if endsOpen path then none else some (.file content)
    | found => found

/-- Whether a path leads to a file. -/
def isFile (tree : FileTree) (path : String) : Bool :=
  match tree.find? path with
  | some (.file _) => true
  | _ => false

/-- Whether a path leads to a directory. -/
def isDirectory (tree : FileTree) (path : String) : Bool := tree.find? path == some .directory

/-- Whether a path leads anywhere. -/
def exists? (tree : FileTree) (path : String) : Bool := (tree.find? path).isSome

/-! ### Reading and writing -/

/-- The content of a file. -/
def readContent (tree : FileTree) (path : String) : Except FileFault Content := do
  let place ← tree.resolve path
  match tree.entryAt? place with
  | none => .error .notFound
  | some .directory => .error .isDirectory
  | some (.file content) => if endsOpen path then .error .notDirectory else .ok content

/-- The text of a file. -/
def read (tree : FileTree) (path : String) : Except FileFault String := do
  match ← tree.readContent path with
  | .text text => .ok text
  | .binary _ => .error .notText

/-- The tree after the file at a path has been opened for writing and its content, if it was
there, changed. A slash at the end asks for a directory, whatever stands there. -/
def update (tree : FileTree) (path : String) (change : Option Content → Content) :
    Except FileFault FileTree := do
  let place ← tree.resolve path
  match tree.entryAt? place, ending path with
  | some .directory, _ => .error .isDirectory
  | _, .slash => .error .isDirectory
  | some (.file _), .dot => .error .notDirectory
  | none, .dot => .error .notFound
  | some (.file content), .name => .ok (tree.insert place (.file (change (some content))))
  | none, .name => .ok (tree.insert place (.file (change none)))

/-- The tree after a text has been written to a path. -/
def write (tree : FileTree) (path text : String) : Except FileFault FileTree :=
  tree.update path fun _ => .text text

/-- The tree after a text has been added at the end of a file, made where there is none. -/
def append (tree : FileTree) (path text : String) : Except FileFault FileTree :=
  tree.update path fun
    | some content => content.append text
    | none => .text text

/-! ### Whole trees -/

/-- The tree with a directory and every directory above it, where nothing stands there yet. -/
def makeDirectories (tree : FileTree) (names : List String) : FileTree :=
  (List.range names.length).foldl (fun tree n =>
    let place := names.take (n + 1)
    if (tree.entryAt? place).isSome then tree else tree.insert place .directory) tree

/-- The tree with a file, and the directories above it. -/
def put (tree : FileTree) (path : String) (content : Content) : FileTree :=
  let names := Path.names path
  (tree.makeDirectories names.dropLast).insert names (.file content)

/-- The files below a place, by the names from there on. -/
def filesBelow (tree : FileTree) (place : List String) : List (List String × Content) :=
  tree.entries.filterMap fun (names, entry) =>
    match entry with
    | .directory => none
    | .file content =>
      if place.isPrefixOf names then some (names.drop place.length, content) else none

end FileTree

end ManifestBump

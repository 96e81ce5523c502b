import ManifestBump.Repository.Basic
import ManifestBump.Text.Lossy
import ManifestBump.Text.NaturalOrder

/-! Names of commits, and the files that commits hold. -/
namespace ManifestBump.Repository

/-! ### Commits by name -/

/-- The commit that a name alone stands for: tags come before branches. -/
def named? (r : Repository) (name : String) : Option Nat :=
  let lookup (lead : String) (table : List (String × Nat)) : Option Nat :=
    if lead.toList.isPrefixOf name.toList then
      table.lookup (String.ofList (name.toList.drop lead.toList.length))
    else none
  if name = "HEAD" ∨ name = "@" then r.headCommit?
  else
    lookup "refs/heads/" r.branches <|> lookup "refs/tags/" r.tags
      <|> lookup "heads/" r.branches <|> lookup "tags/" r.tags
      <|> r.tags.lookup name <|> r.branches.lookup name

/-- The commit some generations before another. -/
def ancestor? (r : Repository) : (generations commit : Nat) → Option Nat
  | 0, commit => some commit
  | n + 1, commit => (r.commits[commit]?.bind Commit.parent).bind (r.ancestor? n)

/-- What a mark behind a name leads to: `~` goes some generations back, `^` to one of the
parents, of which there is at most one here. -/
def step? (r : Repository) (mark : Char) (count : Option Nat) (commit : Nat) : Option Nat :=
  let n := count.getD 1
  if mark = '~' then r.ancestor? n commit
  else if n ≤ 1 then r.ancestor? n commit
  else none

/-- The kinds of object that a commit may be asked for as. -/
def peelMarks : List (List Char) :=
  ["\x7bcommit\x7d", "\x7btree\x7d", "\x7bobject\x7d", "\x7b\x7d"].map String.toList

/-- What marks behind a name lead to, of which there are at most `bound`. -/
def steps? (r : Repository) : (bound : Nat) → List Char → Nat → Option Nat
  | 0, text, commit => if text.isEmpty then some commit else none
  | _ + 1, [], commit => some commit
  | bound + 1, mark :: text, commit =>
    if mark = '~' ∨ mark = '^' then
      match peelMarks.find? (·.isPrefixOf text) with
      | some peel =>
        if mark = '^' then r.steps? bound (text.drop peel.length) commit else none
      | none =>
        let digits := text.takeWhile Char.isDigit
        let count := if digits.isEmpty then none else some (Nat.ofDigitChars 10 digits 0)
        (r.step? mark count commit).bind (r.steps? bound (text.dropWhile Char.isDigit))
    else none

/-- The commit that a revision stands for. -/
def resolve? (r : Repository) (revision : String) : Option Nat :=
  let isName (c : Char) : Bool := c != '~' && c != '^'
  let name := revision.toList.takeWhile isName
  (r.named? (String.ofList name)).bind
    (r.steps? revision.length (revision.toList.dropWhile isName))

/-! ### Files of a commit -/

/-- The text of any content. -/
def contentText : Content → String
  | .text s => s
  | .binary bytes => Text.lossy bytes

/-- The names directly below a place, in order of the paths; directories end with a slash. -/
def listing (s : Snapshot) (place : List String) : List String :=
  let entries := (s.below place).filterMap fun (names, _) =>
    match names.drop place.length with
    | [] => none
    | [name] => some name
    | name :: _ => some (name ++ "/")
  (entries.eraseDups).mergeSort (· ≤ ·)

/-- What is told about a path that a revision does not have. -/
def missing (path revision : String) : RepositoryError :=
  .failed "show" ("fatal: path '" ++ path ++ "' does not exist in '" ++ revision ++ "'")

/-- A file at a revision, or the names in a directory; the path is seen from the directory `here`
of the work tree. Without a revision, what is staged is meant. -/
def fileAt (r : Repository) (here : List String) (revision path : String) :
    Except RepositoryError String :=
  let fail : Except RepositoryError String := .error (missing path revision)
  match Path.follow? here (Path.names path) with
  | none => fail
  | some place =>
    if revision = "" ∨ revision = ":0" then
      match r.staged.lookup place with
      | some content => if FileTree.endsOpen path then fail else .ok (contentText content)
      | none => fail
    else
      match r.resolve? revision with
      | none => .error (.failed "show" ("fatal: invalid object name '" ++ revision ++ "'."))
      | some commit =>
        let s := r.snapshotOf commit
        match s.lookup place with
        | some content => if FileTree.endsOpen path then fail else .ok (contentText content)
        | none =>
          let names := listing s place
          if names.isEmpty ∧ place ≠ [] then fail
          else
            .ok ("tree " ++ revision ++ ":./" ++ path ++ "\n\n"
              ++ String.join (names.map (· ++ "\n")))

/-! ### Tags -/

/-- The names of all tags, those of later versions first. -/
def tagsByVersion (r : Repository) : List String :=
  (r.tags.map Prod.fst).mergeSort fun a b => Text.compareNames a b != .lt

/-- A name as it is read from a list of names, without white space around it. -/
def listedName (name : String) : String := String.ofList (Text.trim name.toList)

/-- The names of all tags as they are read from their list, where white space alone is no name. -/
def listedTags (r : Repository) : List String :=
  (r.tagsByVersion.map listedName).filter fun name => !name.isEmpty

end ManifestBump.Repository

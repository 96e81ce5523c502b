import ManifestBump.Repository.Basic

/-! Making commits: what is staged, who makes it, and what is said about it. -/
namespace ManifestBump.Repository

/-! ### Messages -/

/-- A character that counts as space in a message. -/
def isSpace (c : Char) : Bool := c == ' ' || c == '\t' || c == '\n' || c == '\r'

/-- A line without space at its end. -/
def trimLine (line : List Char) : List Char := (line.reverse.dropWhile isSpace).reverse

/-- Lines where of several empty ones only one is left, and none at the beginning or end. -/
def squeeze : (lines : List (List Char)) → List (List Char)
  | [] => []
  | line :: lines =>
    if line.isEmpty then
      match squeeze lines with
      | [] => []
      | next :: rest => if next.isEmpty then next :: rest else [] :: next :: rest
    else line :: squeeze lines

/-- A message with its lines cleaned up. -/
def cleanMessage (message : String) : List (List Char) :=
  (squeeze ((message.toList.splitOn '\n').map trimLine)).dropWhile List.isEmpty

/-- The first paragraph of a message, on one line. -/
def subject (message : String) : String :=
  let paragraph := ((message.toList.splitOn '\n').dropWhile (trimLine · == [])).takeWhile
    (trimLine · != [])
  " ".intercalate (paragraph.map fun line => String.ofList (trimLine line))

/-! ### Identities -/

/-- A character that does not begin or end a name. -/
def isCrud (c : Char) : Bool := c.toNat ≤ 32 || ",:;<>\"\\'".toList.contains c

/-- A name or address as it is recorded. -/
def recorded (text : String) : String :=
  let trimmed := ((text.toList.dropWhile isCrud).reverse.dropWhile isCrud).reverse
  String.ofList (trimmed.filter fun c => c != '\n' && c != '<' && c != '>')

/-- What is put in place of the identity of a repository. -/
structure IdentityOverride where
  name : Option String := none
  email : Option String := none
deriving DecidableEq, Repr

/-- The identity for a commit, unless its name comes to nothing. -/
def identityFor? (r : Repository) (committer : IdentityOverride) : Option Identity :=
  let name := recorded (committer.name.getD r.identity.name)
  if name.isEmpty then none else some ⟨name, recorded (committer.email.getD r.identity.email)⟩

/-! ### Staging -/

/-- The place in the work tree that a path leads to from the directory `here`. -/
def target? (r : Repository) (here : List String) (path : String) : Option (List String) :=
  if Path.isAbsolute path then (Path.follow? [] (Path.names path)).bind r.within?
  else Path.follow? here (Path.names path)

/-- The files of the work tree at and below a place. -/
def workFiles (r : Repository) (tree : FileTree) (target : List String) : Snapshot :=
  (Snapshot.below target (tree.filesBelow r.place)).filter fun f => f.1.head? != some ".git"

/-- The repository with what stands at a path staged, and the place in the work tree. -/
def stage (r : Repository) (tree : FileTree) (here : List String) (path : String) :
    Except RepositoryError (Repository × List String) :=
  if path.isEmpty then
    .error (.failed "add" ("fatal: empty string is not a valid pathspec. "
      ++ "please use . instead if you meant to match all paths"))
  else
    match r.target? here path with
    | none =>
      .error (.failed "add" ("fatal: " ++ path ++ ": '" ++ path ++ "' is outside repository at '/"
        ++ "/".intercalate r.place ++ "'"))
    | some target =>
      let files := r.workFiles tree target
      let isFile := files.any (·.1 == target)
      let present := (tree.entryAt? (r.place ++ target)).isSome
        || !(Snapshot.below target r.staged).isEmpty
      if !present || (isFile && FileTree.endsOpen path) then
        .error (.failed "add" ("fatal: pathspec '" ++ path ++ "' did not match any files"))
      else .ok ({ r with staged := Snapshot.graft target r.staged files }, target)

/-! ### Committing -/

/-- The repository with one more commit, which is then checked out. -/
def advance (r : Repository) (commit : Commit) : Repository :=
  let n := r.commits.length
  let r := { r with commits := r.commits ++ [commit] }
  match r.head with
  | .detached _ => { r with head := .detached n }
  | .branch name =>
    { r with branches := (name, n) :: r.branches.filter fun b => b.1 != name }

/-- A commit of what is staged at a place, or why there is none. -/
def draft (r : Repository) (target : List String) (path message : String)
    (committer : IdentityOverride) : Except RepositoryError Commit :=
  let fail (report : String) : Except RepositoryError Commit := .error (.failed "commit" report)
  let before := r.headSnapshot
  if (Snapshot.below target r.staged).isEmpty && (Snapshot.below target before).isEmpty then
    fail ("error: pathspec '" ++ path ++ "' did not match any file(s) known to git")
  else
    match r.identityFor? committer with
    | none => fail "fatal: empty ident name not allowed"
    | some author =>
      let after := Snapshot.graft target before r.staged
      if Snapshot.same after before then fail ""
      else
        match cleanMessage message with
        | [] => fail "Aborting commit due to empty commit message."
        | lines =>
          let text := String.join (lines.map fun line => String.ofList (line ++ ['\n']))
          .ok ⟨after, r.headCommit?, author, text⟩

/-- Stages what stands at a path and commits that alone. When the commit fails, the path stays
staged. -/
def commitFile (r : Repository) (tree : FileTree) (here : List String) (path message : String)
    (committer : IdentityOverride) : Repository × Except RepositoryError Unit :=
  match r.stage tree here path with
  | .error e => (r, .error e)
  | .ok (r, target) =>
    match r.draft target path message committer with
    | .error e => (r, .error e)
    | .ok commit => (r.advance commit, .ok ())

end ManifestBump.Repository

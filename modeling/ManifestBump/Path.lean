/-! Paths as texts with `/` between names.

Empty names and `.` say nothing and are left out; `..` is a name like any other here, and only a
file tree gives it its meaning. -/
namespace ManifestBump.Path

/-! ### Names along a path -/

/-- The names along a path, without those that say nothing. -/
def names (path : String) : List String :=
  ((path.toList.splitOn '/').filter fun name => name != [] && name != ['.']).map String.ofList

/-- Whether a path begins at the root. -/
def isAbsolute (path : String) : Bool := path.toList.head? == some '/'

/-- The last name, unless it leads upward. -/
def fileName? (path : String) : Option String :=
  match (names path).getLast? with
  | some name => if name = ".." then none else some name
  | none => none

/-- What follows the last dot of the last name; a dot that begins the name does not count. -/
def extension? (path : String) : Option String := do
  let name ← fileName? path
  let reversed := name.toList.reverse
  match reversed.dropWhile (· != '.') with
  | [] => none
  | ['.'] => none
  | _ :: _ => some (String.ofList (reversed.takeWhile (· != '.')).reverse)

/-! ### Paths from paths -/

/-- A path seen from a directory. An absolute path is itself. -/
def join (directory path : String) : String :=
  if isAbsolute path || directory.isEmpty then path
  else if directory.toList.getLast? == some '/' then directory ++ path
  else directory ++ "/" ++ path

/-- Without trailing names that say nothing, written from the back. The root stays. -/
def trimBack : List Char → List Char
  | '/' :: rest => if rest = [] then ['/'] else trimBack rest
  | '.' :: '/' :: rest => if rest = [] then ['/'] else trimBack rest
  | text => text

/-- The directory a path lies in: the path without its last name. -/
def parent? (path : String) : Option String :=
  match trimBack path.toList.reverse with
  | [] => none
  | ['/'] => none
  | ['.'] => some ""
  | reversed => some (String.ofList (trimBack (reversed.dropWhile (· != '/'))).reverse)

theorem length_trimBack_le (reversed : List Char) :
    (trimBack reversed).length ≤ reversed.length := by
  fun_induction trimBack reversed <;> simp_all <;> omega

theorem trimBack_ne_slash_cons {reversed rest : List Char} (h : trimBack reversed = '/' :: rest) :
    rest = [] := by
  fun_induction trimBack reversed <;> simp_all

/-- A directory is always written shorter than what lies in it. -/
theorem length_of_parent? {path parent : String} (h : parent? path = some parent) :
    parent.toList.length < path.toList.length := by
  have bound := length_trimBack_le path.toList.reverse
  rw [List.length_reverse] at bound
  unfold parent? at h
  split at h
  · cases h
  · cases h
  · rename_i ht
    rw [ht] at bound
    cases h
    simp at bound ⊢
    omega
  · rename_i hempty hroot _
    cases h
    generalize ht : trimBack path.toList.reverse = reversed at *
    cases reversed with
    | nil => exact (hempty rfl).elim
    | cons c rest =>
      have hc : c ≠ '/' := by
        rintro rfl
        exact hroot (by rw [trimBack_ne_slash_cons ht])
      have inner := length_trimBack_le ((c :: rest).dropWhile (· != '/'))
      have shorter : ((c :: rest).dropWhile (· != '/')).length ≤ rest.length := by
        simpa [List.dropWhile_cons, hc] using (List.dropWhile_suffix _).length_le
      simp only [String.toList_ofList, List.length_reverse, List.length_cons] at bound ⊢
      omega

end ManifestBump.Path

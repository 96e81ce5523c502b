import Mathlib
import ManifestBump.Config.Discovery

/-! Which configuration file is found.

A search goes from directory to directory, each the parent of the one before (`above?`), and the first one that holds
the marker is the last one searched (`Searched`). The files that could be found are in an order: the nearer directory
counts first, and in one directory the earlier name (`Candidate`). The file that is found is the first one of them that
is there (`findProject?_nearest`), so nothing but the names and the marker in these directories matters. -/
namespace ManifestBump.Config

/-! ### First answers -/

variable {α β : Type}

/-- The first answer of a list, by its place. -/
theorem findSome?_eq_some_iff_getElem? {f : α → Option β} {l : List α} {b : β} :
    l.findSome? f = some b ↔
      ∃ (n : Nat) (a : α), l[n]? = some a ∧ f a = some b ∧ ∀ m < n, ∀ c, l[m]? = some c → f c = none := by
  rw [List.findSome?_eq_some_iff]
  constructor
  · rintro ⟨front, a, behind, rfl, hb, hfront⟩
    refine ⟨front.length, a, by simp, hb, fun m hm c hc => ?_⟩
    rw [List.getElem?_append_left hm] at hc
    exact hfront c (List.mem_of_getElem? hc)
  · rintro ⟨n, a, ha, hb, hbefore⟩
    obtain ⟨hn, rfl⟩ := List.getElem?_eq_some_iff.mp ha
    refine ⟨l.take n, l[n], l.drop (n + 1), by simp, hb, fun c hc => ?_⟩
    obtain ⟨m, hm, rfl⟩ := List.mem_take_iff_getElem.mp hc
    exact hbefore m (by omega) _ (List.getElem?_eq_getElem _)

/-- The first element of a list that passes a test, by its place. -/
theorem find?_eq_some_iff_getElem? {p : α → Bool} {l : List α} {a : α} :
    l.find? p = some a ↔
      ∃ n : Nat, l[n]? = some a ∧ p a = true ∧ ∀ m < n, ∀ c, l[m]? = some c → p c = false := by
  rw [List.find?_eq_findSome?_guard, findSome?_eq_some_iff_getElem?]
  simp [Option.guard_eq_some_iff, Option.guard_eq_none_iff]

/-! ### Directories -/

/-- The directory that many levels above another. -/
def above? (start : String) : Nat → Option String
  | 0 => some start
  | n + 1 => (Path.parent? start).bind fun parent => above? parent n

theorem upward_of_eq_none {start : String} (h : Path.parent? start = none) : upward start = [start] := by
  rw [upward]
  split
  · rfl
  · rename_i parent hparent
    rw [h] at hparent
    cases hparent

theorem upward_of_eq_some {start parent : String} (h : Path.parent? start = some parent) :
    upward start = start :: upward parent := by
  rw [upward]
  split
  · rename_i hnone
    rw [h] at hnone
    cases hnone
  · rename_i other hother
    rw [h] at hother
    rw [Option.some.inj hother]

theorem getElem?_upward (start : String) (n : Nat) : (upward start)[n]? = above? start n := by
  induction n generalizing start with
  | zero =>
    cases h : Path.parent? start with
    | none => rw [upward_of_eq_none h]; rfl
    | some parent => rw [upward_of_eq_some h]; rfl
  | succ n ih =>
    cases h : Path.parent? start with
    | none => rw [upward_of_eq_none h, above?, h]; rfl
    | some parent => rw [upward_of_eq_some h, above?, h, List.getElem?_cons_succ, ih]; rfl

/-- There is an end to the directories above another. -/
theorem above?_eq_none {start : String} {n : Nat} (h : start.toList.length < n) : above? start n = none := by
  induction n generalizing start with
  | zero => omega
  | succ n ih =>
    rw [above?]
    cases hparent : Path.parent? start with
    | none => rfl
    | some parent =>
      have hshorter := Path.length_of_parent? hparent
      exact ih (by omega)

/-- The names of a text with a slash in it are those on both sides. -/
theorem names_append_slash (front behind : List Char) :
    Path.names (String.ofList (front ++ '/' :: behind)) =
      Path.names (String.ofList front) ++ Path.names (String.ofList behind) := by
  have hsplit : (front ++ '/' :: behind).splitOnP (· == '/') = front.splitOnP (· == '/') ++ behind.splitOnP (· == '/') :=
    List.splitOnP_append_cons front behind rfl
  simp only [Path.names, String.toList_ofList, List.splitOn_eq_splitOnP, hsplit, List.filter_append, List.map_append]

/-- What is left of a path without names, written from the back, is a slash or nothing. -/
theorem names_of_trimBack {reversed : List Char} (h : Path.trimBack reversed = [] ∨ Path.trimBack reversed = ['/']) :
    Path.names (String.ofList reversed.reverse) = [] := by
  fun_induction Path.trimBack reversed with
  | case1 => decide
  | case2 rest _ ih => rw [List.reverse_cons, names_append_slash, ih h]; rfl
  | case3 => decide
  | case4 rest _ ih =>
    rw [List.reverse_cons, List.reverse_cons, List.append_assoc, List.singleton_append, names_append_slash, ih h]
    rfl
  | case5 text hslash hdot =>
    cases h with
    | inl h => rw [h]; rfl
    | inr h => exact absurd h (hslash [])

/-- No name is left on a path that has no parent. -/
theorem names_eq_nil_of_parent? {path : String} (h : Path.parent? path = none) : Path.names path = [] := by
  have htrim : Path.trimBack path.toList.reverse = [] ∨ Path.trimBack path.toList.reverse = ['/'] := by
    unfold Path.parent? at h
    split at h
    · rename_i hempty
      exact .inl hempty
    · rename_i hroot
      exact .inr hroot
    · cases h
    · cases h
  have hnames := names_of_trimBack htrim
  rwa [List.reverse_reverse, String.ofList_toList] at hnames

/-- The last directory is the root, or the one that a relative path is seen from. -/
theorem names_of_above? {start top : String} {n : Nat} (h : above? start n = some top)
    (hend : above? start (n + 1) = none) : Path.names top = [] := by
  induction n generalizing start with
  | zero =>
    cases h
    rw [above?] at hend
    cases hparent : Path.parent? top with
    | none => exact names_eq_nil_of_parent? hparent
    | some parent =>
      rw [hparent] at hend
      cases hend
  | succ n ih =>
    rw [above?] at h hend
    cases hparent : Path.parent? start with
    | none =>
      rw [hparent] at h
      cases h
    | some parent =>
      rw [hparent] at h hend
      exact ih h hend

/-! ### What is searched -/

/-- Whether a directory holds the marker. -/
def Holds (tree : FileTree) (marker : Option String) (directory : String) : Prop :=
  ∃ m ∈ marker, tree.exists? (Path.join directory m) = true

/-- A directory that is searched: no directory below it holds the marker. -/
def Searched (tree : FileTree) (marker : Option String) (start : String) (n : Nat) (directory : String) : Prop :=
  above? start n = some directory ∧
    ∀ m < n, ∀ below, above? start m = some below → ¬Holds tree marker below

/-- A file that counts, if it is there: the directory is `n` levels up, and the name is the one at `k`. -/
def Candidate (tree : FileTree) (marker : Option String) (start : String) (n k : Nat) (file : String) : Prop :=
  ∃ directory name, Searched tree marker start n directory ∧ projectNames[k]? = some name ∧
    file = Path.join directory name

variable {tree : FileTree} {marker : Option String} {start file : String}

theorem any_exists?_iff {directory : String} :
    (marker.any fun m => tree.exists? (Path.join directory m)) = true ↔ Holds tree marker directory := by
  cases marker <;> simp [Holds]

theorem getElem?_upToMarker {directories : List String} {n : Nat} {directory : String} :
    (upToMarker tree marker directories)[n]? = some directory ↔
      directories[n]? = some directory ∧
        ∀ m < n, ∀ below, directories[m]? = some below → ¬Holds tree marker below := by
  induction directories generalizing n with
  | nil => simp [upToMarker]
  | cons first rest ih =>
    rw [upToMarker]
    split
    · rename_i hholds
      rw [any_exists?_iff] at hholds
      cases n with
      | zero => simp
      | succ n =>
        constructor
        · intro h
          simp at h
        · intro h
          exact absurd hholds (h.2 0 (by omega) first rfl)
    · rename_i hholds
      rw [any_exists?_iff] at hholds
      cases n with
      | zero => simp
      | succ n =>
        rw [List.getElem?_cons_succ, List.getElem?_cons_succ, ih]
        refine and_congr_right fun _ => ⟨fun h m hm below hbelow => ?_, fun h m hm below hbelow => ?_⟩
        · cases m with
          | zero =>
            cases hbelow
            exact hholds
          | succ m => exact h m (by omega) below hbelow
        · exact h (m + 1) (by omega) below hbelow

theorem getElem?_searched {n : Nat} {directory : String} :
    (upToMarker tree marker (upward start))[n]? = some directory ↔ Searched tree marker start n directory := by
  simp only [getElem?_upToMarker, getElem?_upward, Searched]

/-! ### What is found -/

theorem findIn_eq_some_iff {directory : String} : findIn tree projectNames directory = some file ↔
    ∃ (k : Nat) (name : String), projectNames[k]? = some name ∧ file = Path.join directory name ∧
      tree.isFile file = true ∧
      ∀ j < k, ∀ other, projectNames[j]? = some other → tree.isFile (Path.join directory other) = false := by
  rw [findIn, find?_eq_some_iff_getElem?]
  simp only [List.getElem?_map, Option.map_eq_some_iff]
  constructor
  · rintro ⟨k, ⟨name, hname, rfl⟩, hfile, hbefore⟩
    exact ⟨k, name, hname, rfl, hfile, fun j hj other hother => hbefore j hj _ ⟨other, hother, rfl⟩⟩
  · rintro ⟨k, name, hname, rfl, hfile, hbefore⟩
    refine ⟨k, ⟨name, hname, rfl⟩, hfile, fun j hj other hother => ?_⟩
    obtain ⟨name', hname', rfl⟩ := hother
    exact hbefore j hj name' hname'

theorem findIn_eq_none_iff {directory : String} : findIn tree projectNames directory = none ↔
    ∀ (k : Nat) (name : String), projectNames[k]? = some name → tree.isFile (Path.join directory name) = false := by
  rw [findIn, List.find?_eq_none]
  constructor
  · intro h k name hname
    exact eq_false_of_ne_true (h _ (List.mem_map_of_mem (List.mem_of_getElem? hname)))
  · intro h file hfile
    obtain ⟨name, hmem, rfl⟩ := List.mem_map.mp hfile
    obtain ⟨k, hname⟩ := List.mem_iff_getElem?.mp hmem
    rw [h k name hname]
    exact Bool.false_ne_true

/-- The order in which files count: by directory, then by name. -/
def Before (m j n k : Nat) : Prop := m < n ∨ m = n ∧ j < k

/-- **The file that is found is the first one that is there.** -/
theorem findProject?_eq_some_iff : findProject? tree marker start = some file ↔
    ∃ n k, Candidate tree marker start n k file ∧ tree.isFile file = true ∧
      ∀ m j other, Before m j n k → Candidate tree marker start m j other → tree.isFile other = false := by
  rw [findProject?, findSome?_eq_some_iff_getElem?]
  simp only [getElem?_searched, findIn_eq_some_iff, findIn_eq_none_iff]
  constructor
  · rintro ⟨n, directory, hsearched, ⟨k, name, hname, rfl, hfile, hbefore⟩, hbelow⟩
    refine ⟨n, k, ⟨directory, name, hsearched, hname, rfl⟩, hfile, ?_⟩
    rintro m j other hm ⟨directory', name', hsearched', hname', rfl⟩
    rcases hm with hm | ⟨rfl, hj⟩
    · exact hbelow m hm directory' hsearched' j name' hname'
    · obtain rfl : directory = directory' := Option.some.inj (hsearched.1.symm.trans hsearched'.1)
      exact hbefore j hj name' hname'
  · rintro ⟨n, k, ⟨directory, name, hsearched, hname, rfl⟩, hfile, hbefore⟩
    refine ⟨n, directory, hsearched, ⟨k, name, hname, rfl, hfile, fun j hj other hother => ?_⟩, ?_⟩
    · exact hbefore n j _ (.inr ⟨rfl, hj⟩) ⟨directory, other, hsearched, hother, rfl⟩
    · intro m hm directory' hsearched' j name' hname'
      exact hbefore m j _ (.inl hm) ⟨directory', name', hsearched', hname', rfl⟩

theorem findProject?_eq_none_iff : findProject? tree marker start = none ↔
    ∀ n k file, Candidate tree marker start n k file → tree.isFile file = false := by
  rw [findProject?, List.findSome?_eq_none_iff]
  simp only [List.mem_iff_getElem?, getElem?_searched, findIn_eq_none_iff]
  constructor
  · rintro h n k file ⟨directory, name, hsearched, hname, rfl⟩
    exact h directory ⟨n, hsearched⟩ k name hname
  · rintro h directory ⟨n, hsearched⟩ k name hname
    exact h n k _ ⟨directory, name, hsearched, hname, rfl⟩

/-! ### What does not matter -/

/-- Two trees that are the same to a search: they have the same files of a project and the same marker in the
directories that are searched. -/
def Agrees (tree other : FileTree) (marker : Option String) (start : String) : Prop :=
  ∀ n directory, Searched tree marker start n directory →
    (∀ m ∈ marker, other.exists? (Path.join directory m) = tree.exists? (Path.join directory m)) ∧
    ∀ name ∈ projectNames, other.isFile (Path.join directory name) = tree.isFile (Path.join directory name)

variable {other : FileTree}

theorem Agrees.holds_iff (h : Agrees tree other marker start) {n : Nat} {directory : String}
    (hsearched : Searched tree marker start n directory) :
    Holds other marker directory ↔ Holds tree marker directory := by
  refine exists_congr fun m => and_congr_right fun hm => ?_
  rw [(h n directory hsearched).1 m hm]

/-- Where all directories below are searched, a directory is searched in both trees or in none. -/
theorem Agrees.searched_iff (h : Agrees tree other marker start) {n : Nat} {directory : String} :
    Searched other marker start n directory ↔ Searched tree marker start n directory := by
  induction n using Nat.strong_induction_on generalizing directory with
  | _ n ih =>
    -- a directory below is searched before this one, so the trees agree on its marker
    have hbelow : ∀ m < n, ∀ below, above? start m = some below →
        (∀ l < m, ∀ lower, above? start l = some lower → ¬Holds tree marker lower) →
        (Holds other marker below ↔ Holds tree marker below) :=
      fun m _ below hm hlower => h.holds_iff ⟨hm, hlower⟩
    constructor
    · intro hsearched
      refine ⟨hsearched.1, fun m hm below hmem => ?_⟩
      have hother : Searched other marker start m below :=
        ⟨hmem, fun l hl => hsearched.2 l (hl.trans hm)⟩
      rw [← hbelow m hm below hmem ((ih m hm).mp hother).2]
      exact hsearched.2 m hm below hmem
    · intro hsearched
      refine ⟨hsearched.1, fun m hm below hmem => ?_⟩
      rw [hbelow m hm below hmem fun l hl => hsearched.2 l (hl.trans hm)]
      exact hsearched.2 m hm below hmem

theorem Agrees.candidate_iff (h : Agrees tree other marker start) {n k : Nat} :
    Candidate other marker start n k file ↔ Candidate tree marker start n k file := by
  refine exists_congr fun directory => exists_congr fun name => ?_
  rw [h.searched_iff]

theorem Agrees.isFile_eq (h : Agrees tree other marker start) {n k : Nat}
    (hcandidate : Candidate tree marker start n k file) : other.isFile file = tree.isFile file := by
  obtain ⟨directory, name, hsearched, hname, rfl⟩ := hcandidate
  exact (h n directory hsearched).2 name (List.mem_of_getElem? hname)

/-- **Nothing else in a tree matters to a search.** -/
theorem findProject?_of_agrees (h : Agrees tree other marker start) :
    findProject? other marker start = findProject? tree marker start := by
  cases hfound : findProject? tree marker start with
  | none =>
    rw [findProject?_eq_none_iff] at hfound ⊢
    intro n k file hcandidate
    rw [h.candidate_iff] at hcandidate
    rw [h.isFile_eq hcandidate]
    exact hfound n k file hcandidate
  | some file =>
    rw [findProject?_eq_some_iff] at hfound ⊢
    obtain ⟨n, k, hcandidate, hfile, hbefore⟩ := hfound
    refine ⟨n, k, h.candidate_iff.mpr hcandidate, by rw [h.isFile_eq hcandidate, hfile], ?_⟩
    intro m j earlier hm hearlier
    rw [h.candidate_iff] at hearlier
    rw [h.isFile_eq hearlier]
    exact hbefore m j earlier hm hearlier

/-- **The file that is found is the nearest one inside the boundary**: the first one that is there, in the directories
from the start upward as far as the first one that holds the marker, and in each of them in the order of names. The
directories come to an end, and what is above the boundary does not matter. -/
theorem findProject?_nearest (tree : FileTree) (marker : Option String) (start : String) :
    projectNames = [".nudge.toml", "nudge.toml", ".nudge.yaml", "nudge.yaml", ".nudge.yml", "nudge.yml", ".nudge.json",
      "nudge.json"] ∧
    (∀ n, start.toList.length < n → above? start n = none) ∧
    (∀ n top, above? start n = some top → above? start (n + 1) = none → Path.names top = []) ∧
    (∀ file, findProject? tree marker start = some file ↔
      ∃ n k, Candidate tree marker start n k file ∧ tree.isFile file = true ∧
        ∀ m j other, Before m j n k → Candidate tree marker start m j other → tree.isFile other = false) ∧
    (findProject? tree marker start = none ↔
      ∀ n k file, Candidate tree marker start n k file → tree.isFile file = false) ∧
    ∀ other, Agrees tree other marker start → findProject? other marker start = findProject? tree marker start :=
  ⟨rfl, fun _ => above?_eq_none, fun _ _ => names_of_above?, fun _ => findProject?_eq_some_iff,
    findProject?_eq_none_iff, fun _ => findProject?_of_agrees⟩

/-- A repository at `/w/repo`: what is called like a configuration file in its directory for sources is a directory. -/
def nested (others : List (List String × Entry)) : FileTree :=
  ⟨[(["w"], .directory), (["w", "repo"], .directory), (["w", "repo", ".git"], .directory),
    (["w", "repo", "nudge.yaml"], .file (.text "log_level: warn")), (["w", "repo", "src"], .directory),
    (["w", "repo", "src", ".nudge.toml"], .directory)] ++ others⟩

/-- A file above the repository is of no concern. -/
theorem findProject?_nearest_nested :
    Agrees (nested []) (nested [(["w", ".nudge.toml"], .file (.text ""))]) (some ".git") "/w/repo/src" ∧
      findProject? (nested [(["w", ".nudge.toml"], .file (.text ""))]) (some ".git") "/w/repo/src" =
        some "/w/repo/nudge.yaml" := by
  obtain ⟨-, -, -, hfound, -, hagrees⟩ := findProject?_nearest (nested []) (some ".git") "/w/repo/src"
  have hparent : above? "/w/repo/src" 1 = some "/w/repo" := by decide +kernel
  have hsource : ¬Holds (nested []) (some ".git") "/w/repo/src" := by
    rw [← any_exists?_iff]
    decide +kernel
  have hrepo : Holds (nested []) (some ".git") "/w/repo" := ⟨".git", rfl, by decide +kernel⟩
  have hfirst : Searched (nested []) (some ".git") "/w/repo/src" 1 "/w/repo" := by
    refine ⟨hparent, fun m hm below hbelow => ?_⟩
    obtain rfl : m = 0 := by omega
    cases hbelow
    exact hsource
  have hsearched : ∀ n directory, Searched (nested []) (some ".git") "/w/repo/src" n directory →
      n = 0 ∧ directory = "/w/repo/src" ∨ n = 1 ∧ directory = "/w/repo" := by
    intro n directory h
    match n with
    | 0 => exact .inl ⟨rfl, (Option.some.inj h.1).symm⟩
    | 1 => exact .inr ⟨rfl, Option.some.inj (h.1.symm.trans hparent)⟩
    | n + 2 => exact absurd hrepo (h.2 1 (by omega) "/w/repo" hparent)
  have hagree : Agrees (nested []) (nested [(["w", ".nudge.toml"], .file (.text ""))]) (some ".git") "/w/repo/src" := by
    intro n directory h
    rcases hsearched n directory h with ⟨-, rfl⟩ | ⟨-, rfl⟩ <;> exact ⟨by decide +kernel, by decide +kernel⟩
  refine ⟨hagree, ?_⟩
  rw [hagrees _ hagree, hfound]
  refine ⟨1, 3, ⟨"/w/repo", "nudge.yaml", hfirst, rfl, by decide +kernel⟩, by decide +kernel, ?_⟩
  rintro m j other hm ⟨directory, name, hdirectory, hname, rfl⟩
  rcases hsearched m directory hdirectory with ⟨rfl, rfl⟩ | ⟨rfl, rfl⟩
  · have hnone : ∀ name ∈ projectNames, (nested []).isFile (Path.join "/w/repo/src" name) = false := by decide +kernel
    exact hnone name (List.mem_of_getElem? hname)
  · have hj : j < 3 := by
      rcases hm with hm | hm
      · omega
      · exact hm.2
    have hnone : ∀ name ∈ projectNames.take 3, (nested []).isFile (Path.join "/w/repo" name) = false := by
      decide +kernel
    exact hnone name (List.mem_of_getElem? (by rwa [List.getElem?_take_of_lt hj]))

end ManifestBump.Config

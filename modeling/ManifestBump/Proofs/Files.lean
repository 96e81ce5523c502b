import Mathlib
import ManifestBump.FileTree
import ManifestBump.Proofs.Except

/-! Reading back what has been written.

Writing puts a file where no directory is, so whatever led somewhere still leads there
(`walk_insert`). Hence a file that has been written reads back (`read_of_write`), and any other
file reads as before (`read_of_write_of_read`). -/
namespace ManifestBump.FileTree

/-! ### Entries -/

theorem lookup_replace (entries : List (List String × Entry)) (names other : List String)
    (entry : Entry) :
    (entries.map fun e => if e.1 == names then (names, entry) else e).lookup other =
      if other = names then (if entries.any (·.1 == names) then some entry else none)
      else entries.lookup other := by
  induction entries with
  | nil => simp
  | cons e entries ih =>
    obtain ⟨key, found⟩ := e
    by_cases hkey : key = names
    · subst hkey
      by_cases hother : other = key
      · simp [hother]
      · have hbeq : (other == key) = false := beq_eq_false_iff_ne.mpr hother
        simpa [List.lookup_cons, hbeq, hother] using ih
    · have hbeq : (key == names) = false := beq_eq_false_iff_ne.mpr hkey
      rw [List.map_cons, hbeq, if_neg Bool.false_ne_true, List.lookup_cons, List.lookup_cons, ih,
        List.any_cons, hbeq, Bool.false_or]
      cases hother : other == key with
      | false => rfl
      | true =>
        have hne : ¬other = names := by rw [eq_of_beq hother]; exact hkey
        simp only [if_neg hne]

theorem entryAt?_insert (tree : FileTree) {names : List String} (other : List String) (entry : Entry)
    (hne : names ≠ []) :
    (tree.insert names entry).entryAt? other = if other = names then some entry else tree.entryAt? other := by
  by_cases hnil : other = []
  · subst hnil
    unfold entryAt?
    simp [Ne.symm hne]
  · have hempty : other.isEmpty = false := by simpa using hnil
    unfold entryAt?
    simp only [insert, hempty, Bool.false_eq_true, if_false]
    split
    · rename_i hany
      rw [lookup_replace, hany]
      rfl
    · rename_i hany
      have hlookup : tree.entries.lookup names = none := by
        rw [List.lookup_eq_none_iff]
        intro p hp
        have hne' : p.1 ≠ names := fun heq => hany (List.any_eq_true.mpr ⟨p, hp, beq_iff_eq.mpr heq⟩)
        simpa using Ne.symm hne'
      rw [List.lookup_append, List.lookup_cons, List.lookup_nil]
      by_cases hother : other = names
      · rw [hother, hlookup, BEq.rfl, if_pos rfl]
        rfl
      · rw [beq_eq_false_iff_ne.mpr hother, if_neg hother, Option.or_none]

/-- Where something led before a file was put where no directory is, it leads afterwards. -/
theorem walk_insert {tree : FileTree} {place : List String} {content : Content}
    (hplace : tree.entryAt? place ≠ some .directory) (names : List String) {here there : List String}
    (h : tree.walk here names = .ok there) :
    (tree.insert place (.file content)).walk here names = .ok there := by
  have hne : place ≠ [] := by
    intro heq
    subst heq
    exact hplace rfl
  induction names generalizing here with
  | nil => exact h
  | cons name names ih =>
    rw [walk] at h ⊢
    split at h
    · cases h
    · cases h
    · rename_i hdir
      have hother : here ≠ place := by
        intro heq
        subst heq
        exact hplace hdir
      rw [entryAt?_insert _ _ _ hne, if_neg hother, hdir]
      exact ih h

/-! ### Reading and writing -/

theorem readContent_eq_ok_iff {tree : FileTree} {path : String} {content : Content} :
    tree.readContent path = .ok content ↔ ∃ place, tree.resolve path = .ok place ∧
      tree.entryAt? place = some (.file content) ∧ ending path = .name := by
  constructor
  · intro h
    obtain ⟨place, hplace, h⟩ := bind_eq_ok_iff.mp h
    split at h
    · cases h
    · cases h
    · rename_i hentry
      split at h
      · cases h
      · rename_i hopen
        cases h
        exact ⟨place, hplace, hentry, by simpa [endsOpen] using hopen⟩
  · rintro ⟨place, hplace, hentry, hend⟩
    simp [readContent, bind, Except.bind, hplace, hentry, endsOpen, hend]

/-- Reading gives a text if that is what the file holds. -/
theorem read_eq_ok_iff_readContent {tree : FileTree} {path text : String} :
    tree.read path = .ok text ↔ tree.readContent path = .ok (.text text) := by
  simp only [read, bind, Except.bind]
  rcases tree.readContent path with fault | content | bytes <;> simp

theorem read_eq_ok_iff {tree : FileTree} {path text : String} :
    tree.read path = .ok text ↔ ∃ place, tree.resolve path = .ok place ∧
      tree.entryAt? place = some (.file (.text text)) ∧ endsOpen path = false := by
  rw [read_eq_ok_iff_readContent, readContent_eq_ok_iff]
  simp [endsOpen]

theorem write_eq_ok_iff {tree after : FileTree} {path text : String} :
    tree.write path text = .ok after ↔ ∃ place, tree.resolve path = .ok place ∧
      tree.entryAt? place ≠ some .directory ∧ ending path = .name ∧
      after = tree.insert place (.file (.text text)) := by
  constructor
  · intro h
    obtain ⟨place, hplace, h⟩ := bind_eq_ok_iff.mp h
    split at h <;> cases h
    · rename_i hentry hend
      exact ⟨place, hplace, by simp [hentry], hend, rfl⟩
    · rename_i hentry hend
      exact ⟨place, hplace, by simp [hentry], hend, rfl⟩
  · intro h
    obtain ⟨place, hplace, hentry, hend, rfl⟩ := h
    simp only [write, update, bind, Except.bind, hplace, hend]
    split <;> simp_all

/-- **What has been added to a file stands behind what was there.** -/
theorem exists_append {tree : FileTree} {path : String} {content : Content} (h : tree.readContent path = .ok content)
    (text : String) : ∃ after, tree.append path text = .ok after ∧ after.readContent path = .ok (content.append text) := by
  obtain ⟨place, hplace, hentry, hend⟩ := readContent_eq_ok_iff.mp h
  have hne : place ≠ [] := by
    rintro rfl
    cases hentry
  refine ⟨tree.insert place (.file (content.append text)), ?_, readContent_eq_ok_iff.mpr ⟨place, ?_, ?_, hend⟩⟩
  · simp [append, update, bind, Except.bind, hplace, hentry, hend]
  · exact walk_insert (by simp [hentry]) _ hplace
  · rw [entryAt?_insert _ _ _ hne, if_pos rfl]

/-- **What has been written reads back.** -/
theorem read_of_write {tree after : FileTree} {path text : String}
    (h : tree.write path text = .ok after) : after.read path = .ok text := by
  obtain ⟨place, hplace, hentry, hend, rfl⟩ := write_eq_ok_iff.mp h
  have hne : place ≠ [] := by
    intro heq
    subst heq
    exact hentry rfl
  refine read_eq_ok_iff.mpr ⟨place, walk_insert hentry _ hplace, ?_, by simp [endsOpen, hend]⟩
  rw [entryAt?_insert _ _ _ hne, if_pos rfl]

/-- A file reads as before after a write to any path, or as what has been written. -/
theorem read_of_write_of_read {tree after : FileTree} {path other text found : String}
    (h : tree.write path text = .ok after) (hread : tree.read other = .ok found) :
    after.read other = .ok found ∨ after.read other = .ok text := by
  obtain ⟨place, hplace, hentry, hend, rfl⟩ := write_eq_ok_iff.mp h
  obtain ⟨there, hthere, hfound, hopen⟩ := read_eq_ok_iff.mp hread
  have hne : place ≠ [] := by
    intro heq
    subst heq
    exact hentry rfl
  have hwalk : (tree.insert place (.file (.text text))).walk [] (Path.names other) = .ok there :=
    walk_insert hentry _ hthere
  by_cases heq : there = place
  · right
    exact read_eq_ok_iff.mpr ⟨there, hwalk, by rw [entryAt?_insert _ _ _ hne, if_pos heq], hopen⟩
  · left
    exact read_eq_ok_iff.mpr
      ⟨there, hwalk, by rw [entryAt?_insert _ _ _ hne, if_neg heq, hfound], hopen⟩

/-- A tree with one file in it. -/
def single (name text : String) : FileTree := ⟨[([name], .file (.text text))]⟩

end ManifestBump.FileTree

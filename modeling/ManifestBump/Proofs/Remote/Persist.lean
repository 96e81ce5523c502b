import ManifestBump.Proofs.Files
import ManifestBump.Remote.Checkout

/-! Which branch a delivery is committed to.

A commit changes the branch that is checked out and no other (`Repository.advanced_of_commitFile`), and a delivery is
checked against the name of that branch before anything is written (`Checkout.checkBranch_eq_ok_iff`). So a delivery for
another branch leaves everything as it was, and a commit is made on the branch that the delivery names
(`Checkout.persist_on_branch`). What is checked out without being a branch is called `HEAD`, and takes deliveries for a
branch of that name (`Checkout.persist_on_no_branch`). -/
namespace ManifestBump

namespace Repository
variable {r : Repository} {tree : FileTree} {here : List String} {path message : String} {committer : IdentityOverride}

/-! ### Commits -/

/-- What leads to a branch other than one that is left out. -/
theorem lookup_filter_ne {table : List (String × Nat)} {name other : String} (h : other ≠ name) :
    (table.filter fun b => b.1 != name).lookup other = table.lookup other := by
  induction table with
  | nil => rfl
  | cons b table ih =>
    obtain ⟨key, n⟩ := b
    by_cases hkey : key = name
    · subst hkey
      simp [List.lookup_cons, beq_eq_false_iff_ne.mpr h, ih]
    · simp [hkey, List.lookup_cons, ih]

/-- A repository has one more commit, on a branch that is checked out. -/
structure Advanced (before after : Repository) (branch : String) : Prop where
  head : before.head = .branch branch
  stays : after.head = .branch branch
  /-- The commit comes after the one that was checked out. -/
  commits : ∃ commit, after.commits = before.commits ++ [commit] ∧ commit.parent = before.headCommit?
  /-- The branch leads to it. -/
  tip : after.branches.lookup branch = some before.commits.length
  others : ∀ other, other ≠ branch → after.branches.lookup other = before.branches.lookup other
  tags : after.tags = before.tags

theorem advanced_advance {commit : Commit} {branch : String} (hhead : r.head = .branch branch)
    (hparent : commit.parent = r.headCommit?) : Advanced r (r.advance commit) branch := by
  have hadvance : r.advance commit = { r with
      commits := r.commits ++ [commit]
      branches := (branch, r.commits.length) :: r.branches.filter fun b => b.1 != branch } := by
    simp only [advance, hhead]
  rw [hadvance]
  exact {
    head := hhead
    stays := hhead
    commits := ⟨commit, rfl, hparent⟩
    tip := by simp
    others := by
      intro other hother
      simp [List.lookup_cons, beq_eq_false_iff_ne.mpr hother, lookup_filter_ne hother]
    tags := rfl }

theorem stage_eq_ok {staged : Repository × List String} (h : r.stage tree here path = .ok staged) :
    ∃ files, staged.1 = { r with staged := files } := by
  simp only [stage] at h
  split at h
  · cases h
  · split at h
    · cases h
    · split at h
      · cases h
      · cases h
        exact ⟨_, rfl⟩

theorem parent_of_draft {target : List String} {commit : Commit}
    (h : r.draft target path message committer = .ok commit) : commit.parent = r.headCommit? := by
  simp only [draft] at h
  split at h
  · cases h
  · split at h
    · cases h
    · split at h
      · cases h
      · split at h
        · cases h
        · cases h
          rfl

/-- A commit changes nothing but what is staged, or the branch that is checked out has one more. -/
theorem advanced_of_commitFile {branch : String} (hhead : r.head = .branch branch) :
    (r.commitFile tree here path message committer).1.commits = r.commits ∨
      Advanced r (r.commitFile tree here path message committer).1 branch := by
  unfold commitFile
  split
  · exact .inl rfl
  · rename_i staged target hstage
    obtain ⟨files, hfiles⟩ := stage_eq_ok hstage
    obtain rfl : staged = { r with staged := files } := hfiles
    split
    · exact .inl rfl
    · rename_i commit hdraft
      have h := advanced_advance (r := { r with staged := files }) hhead (parent_of_draft hdraft)
      exact .inr ⟨h.head, h.stays, h.commits, h.tip, h.others, h.tags⟩

/-! ### Names of branches -/

/-- A branch is shown by its name alone: nothing else goes by that name, and there is no white space around it. -/
def ShowsName (r : Repository) (branch : String) : Prop :=
  String.ofList (Text.trim (r.shortName branch).toList) = branch

/-- What is checked out is printed as a branch, or as `HEAD`. -/
theorem printedHead_eq_ok {name : String} (h : r.printedHead = .ok name) :
    (∃ branch, r.head = .branch branch ∧ name = r.shortName branch) ∨
      (∃ commit, r.head = .detached commit) ∧ name = "HEAD" := by
  unfold printedHead at h
  split at h
  · cases h
  · rename_i commit _ hhead
    cases h
    exact .inr ⟨⟨_, hhead⟩, rfl⟩
  · rename_i branch _ hhead
    cases h
    exact .inl ⟨branch, hhead, rfl⟩

end Repository

namespace Checkout
variable {c : Checkout} {tree : FileTree} {repository : Option Repository} {d : Delivery}

/-! ### Deliveries -/

theorem eq_some_of_locate {place : Repository × List String} (h : c.locate tree repository = .ok place) :
    repository = some place.1 := by
  unfold locate at h
  split at h
  · split at h
    · cases h
      rfl
    · cases h
  · cases h

/-- **A delivery is for what is checked out**, by the name that is printed for it, without white space around it. -/
theorem checkBranch_eq_ok_iff {reference : String} : c.checkBranch tree repository reference = .ok () ↔
    ∃ place name, c.locate tree repository = .ok place ∧ place.1.printedHead = .ok name ∧
      String.ofList (Text.trim name.toList) = reference := by
  unfold checkBranch currentBranch Repository.currentBranch
  cases hlocate : c.locate tree repository with
  | error e => simp [bind, Except.bind]
  | ok place =>
    cases hname : place.1.printedHead with
    | error e => simp [bind, Except.bind, hname]
    | ok name =>
      have hactual : ∀ shown : String, (if shown = "HEAD" then none else some shown).getD "HEAD" = shown := by
        intro shown
        split
        · rename_i hhead
          exact hhead.symm
        · rfl
      simp only [bind, Except.bind, hname, pure, Except.pure, hactual]
      constructor
      · intro h
        split at h
        · rename_i hsame
          exact ⟨place, name, rfl, hname, hsame⟩
        · cases h
      · rintro ⟨place', name', hplace, hname', hsame⟩
        obtain rfl := Except.ok.inj hplace
        obtain rfl : name = name' := by simpa [hname] using hname'
        rw [if_pos hsame]

/-- A delivery that is not for what is checked out does nothing. -/
theorem persist_of_checkBranch {e : RemoteError} (h : c.checkBranch tree repository d.reference = .error e) :
    c.persist tree repository d = ⟨tree, repository, .error e⟩ := by
  simp only [persist, h]

/-- What becomes of a repository: nothing, or a file is committed, if the delivery is for what is checked out. -/
theorem persist_state {r : Repository} (c : Checkout) (tree : FileTree) (d : Delivery) :
    (c.persist tree (some r) d).state = some r ∨ c.checkBranch tree (some r) d.reference = .ok () ∧
      ∃ later here, (c.persist tree (some r) d).state =
        some (r.commitFile later here d.path d.message c.committer).1 := by
  simp only [persist]
  split
  · exact .inl rfl
  · rename_i hcheck
    split
    · exact .inl rfl
    · rename_i later _
      simp only [commitFile]
      cases hlocate : c.locate later (some r) with
      | error e => exact .inl rfl
      | ok place =>
        obtain ⟨r', here⟩ := place
        obtain rfl := Option.some.inj (eq_some_of_locate hlocate)
        refine .inr ⟨hcheck, later, here, ?_⟩
        cases hcommit : r.commitFile later here d.path d.message c.committer with
        | mk after result => cases result <;> simp only [hcommit]

/-- **A delivery is committed to the branch it names, or not at all.** As long as the branch that is checked out is
shown by its name, and nothing is delivered for `HEAD` where no branch is checked out: if the branch is another one, or
there is none, nothing is touched, and where there is a commit more, it is on that branch. -/
theorem persist_on_branch
    (hshown : ∀ r ∈ repository, ∀ branch, r.head = .branch branch → r.ShowsName branch)
    (hattached : ∀ r ∈ repository, ∀ commit, r.head = .detached commit → d.reference ≠ "HEAD") :
    ((∀ r ∈ repository, r.head ≠ .branch d.reference) →
        ∃ e, c.persist tree repository d = ⟨tree, repository, .error e⟩) ∧
      ∀ r ∈ repository, ∀ after ∈ (c.persist tree repository d).state, after.commits ≠ r.commits →
        r.Advanced after d.reference := by
  have hchecked : c.checkBranch tree repository d.reference = .ok () →
      ∃ r ∈ repository, r.head = .branch d.reference := by
    intro hok
    obtain ⟨⟨r, here⟩, name, hplace, hname, hreference⟩ := checkBranch_eq_ok_iff.mp hok
    have hr : r ∈ repository := eq_some_of_locate hplace
    rcases Repository.printedHead_eq_ok hname with ⟨branch, hhead, rfl⟩ | ⟨⟨commit, hhead⟩, rfl⟩
    · have hsame : String.ofList (Text.trim (r.shortName branch).toList) = branch := hshown r hr branch hhead
      exact ⟨r, hr, by rw [hhead, ← hsame, hreference]⟩
    · exact absurd hreference.symm (hattached r hr commit hhead)
  constructor
  · intro hother
    cases hcheck : c.checkBranch tree repository d.reference with
    | ok _ =>
      obtain ⟨r, hr, hhead⟩ := hchecked hcheck
      exact absurd hhead (hother r hr)
    | error e => exact ⟨e, persist_of_checkBranch hcheck⟩
  · rintro r rfl after hafter hmore
    rcases persist_state c tree d with hsame | ⟨hcheck, later, here, hstate⟩
    · rw [hsame] at hafter
      cases hafter
      exact absurd rfl hmore
    · rw [hstate] at hafter
      cases hafter
      obtain ⟨_, ⟨⟩, hhead⟩ := hchecked hcheck
      exact (Repository.advanced_of_commitFile hhead).resolve_left hmore

/-- A repository at the root, with one branch and one commit of one file. -/
def initial (branch : String) (head : Head) : Repository where
  place := []
  commits := [⟨[(["package.json"], .text "1.0.0")], none, ⟨"Test", "test@example.com"⟩, "initial\n"⟩]
  branches := [(branch, 0)]
  tags := []
  head := head
  staged := [(["package.json"], .text "1.0.0")]
  identity := ⟨"Test", "test@example.com"⟩
  identifier := toString

/-- A delivery of that file. -/
def toBranch (reference : String) : Delivery := ⟨"package.json", reference, "1.0.1", "msg"⟩

theorem persist_on_branch_main :
    (∃ e, persist ⟨"", {}⟩ (.single "package.json" "1.0.0") (some (initial "main" (.branch "main"))) (toBranch "x") =
      ⟨.single "package.json" "1.0.0", some (initial "main" (.branch "main")), .error e⟩) ∧
    ∃ after, (persist ⟨"", {}⟩ (.single "package.json" "1.0.0") (some (initial "main" (.branch "main")))
      (toBranch "main")).state = some after ∧ (initial "main" (.branch "main")).Advanced after "main" := by
  have hshown : ∀ r ∈ some (initial "main" (.branch "main")), ∀ branch, r.head = .branch branch →
      r.ShowsName branch := by
    rintro _ ⟨⟩ _ ⟨⟩
    unfold Repository.ShowsName
    decide +kernel
  have hattached : ∀ reference, ∀ r ∈ some (initial "main" (.branch "main")), ∀ commit, r.head = .detached commit →
      reference ≠ "HEAD" := by
    rintro reference _ ⟨⟩ commit ⟨⟩
  constructor
  · refine (persist_on_branch hshown (hattached _)).1 ?_
    rintro _ ⟨⟩
    decide
  · have hcommits : (persist ⟨"", {}⟩ (.single "package.json" "1.0.0") (some (initial "main" (.branch "main")))
        (toBranch "main")).state.map (fun r => r.commits.length) = some 2 := by
      decide +kernel
    obtain ⟨after, hafter, hlength⟩ := Option.map_eq_some_iff.mp hcommits
    refine ⟨after, hafter, (persist_on_branch hshown (hattached _)).2 _ rfl after hafter ?_⟩
    intro hsame
    rw [hsame] at hlength
    cases hlength

/-- **Where no branch is checked out, a delivery for `HEAD` is committed all the same**, and so is one for a branch
whose name is that of the branch that is checked out but for white space. -/
theorem persist_on_no_branch :
    (persist ⟨"", {}⟩ (.single "package.json" "1.0.0") (some (initial "main" (.detached 0))) (toBranch "HEAD")).result =
        .ok "1" ∧
      (persist ⟨"", {}⟩ (.single "package.json" "1.0.0") (some (initial "main" (.detached 0)))
        (toBranch "HEAD")).state.map (fun r => (r.head, r.commits.length)) = some (.detached 1, 2) ∧
      (persist ⟨"", {}⟩ (.single "package.json" "1.0.0") (some (initial "main\u00a0" (.branch "main\u00a0")))
        (toBranch "main")).state.map (fun r => (r.head, r.commits.length)) = some (.branch "main\u00a0", 2) := by
  decide +kernel

end Checkout
end ManifestBump

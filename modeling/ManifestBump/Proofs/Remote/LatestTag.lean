import ManifestBump.Proofs.Remote.Persist
import ManifestBump.Proofs.Version.Names

/-! Which tag is the latest.

Tags are listed by their names, the last one first, and the first one in the list that is a version is taken. So no
other tag that is a version has a name behind its name, and with what names tell about versions
(`Release.covers_of_compareNames`) there is none with larger numbers behind the same mark, and none of a later version
as far as versions are in the order of their names (`Checkout.latestTag_newest`). They are not if one name has a mark
and the other has none, and a pre-release is not in front of its release (`Checkout.latestTag_prerelease`). -/
namespace ManifestBump
open Text

namespace Release
variable {r r' : Release} {text text' : String}

/-- What a release is next to another if its name is not in front of the other's. -/
structure Covers (r r' : Release) : Prop where
  /-- Names with a mark are behind all others. -/
  marked : r'.marked = true → r.marked = true
  numbers : r.marked = r'.marked → (Version.compareNumbers r'.version r.version).isLE
  /-- Pre-releases are behind their release. -/
  pre : r.marked = r'.marked → Version.compareNumbers r.version r'.version = .eq → r'.version.pre ≠ [] →
    r.version.pre ≠ []
  precedence : r.marked = r'.marked → r.version.Aligned r'.version → (r'.version.precedence r.version).isLE

/-- **What the order of names tells about versions.** -/
theorem covers_of_compareNames (h : parse text = .ok r) (h' : parse text' = .ok r')
    (hnames : compareNames text text' ≠ .lt) : r.Covers r' where
  marked hr' := by
    by_contra hr
    exact hnames (compareNames_of_marked (spelled_of_parse h) (spelled_of_parse h') (by simpa using hr) hr')
  numbers hmarked := by
    have hnumbers : Version.compareNumbers r.version r'.version ≠ .lt :=
      fun hlt => hnames (compareNames_of_before (spelled_of_parse h) (spelled_of_parse h') hmarked (.inl hlt))
    exact Std.OrientedCmp.isGE_iff_isLE.mp (Ordering.ne_lt_iff_isGE.mp hnumbers)
  pre hmarked hnumbers hpre' hpre :=
    hnames (compareNames_of_before (spelled_of_parse h) (spelled_of_parse h') hmarked
      (Version.before_of_pre hnumbers hpre hpre'))
  precedence hmarked haligned := by
    have hprecedence : r.version.precedence r'.version ≠ .lt := fun hlt =>
      hnames (compareNames_of_before (spelled_of_parse h) (spelled_of_parse h') hmarked
        (Version.before_of_precedence (wellFormed_of_parse h) (wellFormed_of_parse h') haligned hlt))
    exact Std.OrientedCmp.isGE_iff_isLE.mp (Ordering.ne_lt_iff_isGE.mp hprecedence)

end Release

namespace Repository
variable {r : Repository} {tag : String}

/-- All tags are listed by their names: there is no white space around them. -/
def ListsNames (r : Repository) : Prop := ∀ tag ∈ r.tags.map Prod.fst, listedName tag = tag

/-- No tag is listed in front of one with a name behind its own. -/
theorem sorted_tagsByVersion (r : Repository) : r.tagsByVersion.Pairwise fun a b => compareNames a b ≠ .lt := by
  have htrans : ∀ a b c, (compareNames a b != .lt) = true → (compareNames b c != .lt) = true →
      (compareNames a c != .lt) = true := by
    intro a b c hab hbc
    simp only [bne_iff_ne, ne_eq, Ordering.ne_lt_iff_isGE] at hab hbc ⊢
    exact Std.TransCmp.isGE_trans hab hbc
  have htotal : ∀ a b, (compareNames a b != .lt || compareNames b a != .lt) = true := by
    intro a b
    rw [Bool.or_eq_true, bne_iff_ne, bne_iff_ne]
    by_cases hab : compareNames a b = .lt
    · exact .inr (Std.OrientedCmp.not_lt_of_lt hab)
    · exact .inl hab
  exact (List.pairwise_mergeSort htrans htotal (r.tags.map Prod.fst)).imp fun hab => by simpa using hab

theorem listedTags_eq (h : r.ListsNames) : r.listedTags = r.tagsByVersion.filter fun name => !name.isEmpty := by
  have hnames : r.tagsByVersion.map listedName = r.tagsByVersion.map id :=
    List.map_congr_left fun tag htag => h tag (List.mem_mergeSort.mp htag)
  rw [listedTags, hnames, List.map_id]

theorem mem_listedTags (h : r.ListsNames) : tag ∈ r.listedTags ↔ tag ∈ r.tags.map Prod.fst ∧ tag ≠ "" := by
  rw [listedTags_eq h, List.mem_filter, tagsByVersion, List.mem_mergeSort]
  simp

theorem sorted_listedTags (h : r.ListsNames) : r.listedTags.Pairwise fun a b => compareNames a b ≠ .lt := by
  rw [listedTags_eq h]
  exact (sorted_tagsByVersion r).filter _

end Repository

namespace Checkout
variable {c : Checkout} {tree : FileTree} {repository : Option Repository} {r : Repository} {here : List String}

theorem exists_of_toBool {α ε : Type} {result : Except ε α} (h : result.toBool = true) : ∃ a, result = .ok a := by
  cases result with
  | ok a => exact ⟨a, rfl⟩
  | error e => cases h

theorem latestTag_of_locate (h : c.locate tree repository = .ok (r, here)) :
    c.latestTag tree repository = .ok (r.listedTags.find? fun tag => (Release.parse tag).toBool) := by
  simp only [latestTag, tags, h, bind, Except.bind, pure, Except.pure]

/-- **The first tag that is a version covers all others**, and there is one unless no tag is a version. -/
theorem latestTag_newest (hlocate : c.locate tree repository = .ok (r, here)) (hlisted : r.ListsNames) :
    ∃ found, c.latestTag tree repository = .ok found ∧
      (found = none ↔ ∀ tag ∈ r.tags.map Prod.fst, ∀ release, Release.parse tag ≠ .ok release) ∧
      ∀ tag ∈ found, tag ∈ r.tags.map Prod.fst ∧ ∃ release, Release.parse tag = .ok release ∧
        ∀ other ∈ r.tags.map Prod.fst, ∀ release', Release.parse other = .ok release' → release.Covers release' := by
  have hlist : ∀ {tag release}, tag ∈ r.tags.map Prod.fst → Release.parse tag = .ok release → tag ∈ r.listedTags := by
    intro tag release htag hparse
    refine (Repository.mem_listedTags hlisted).mpr ⟨htag, ?_⟩
    rintro rfl
    cases hparse
  refine ⟨_, latestTag_of_locate hlocate, ?_, ?_⟩
  · rw [List.find?_eq_none]
    constructor
    · intro hnone tag htag release hparse
      exact hnone tag (hlist htag hparse) (by rw [hparse]; rfl)
    · intro hnone tag htag hversion
      obtain ⟨release, hparse⟩ := exists_of_toBool hversion
      exact hnone tag ((Repository.mem_listedTags hlisted).mp htag).1 release hparse
  · intro tag hfound
    obtain ⟨hversion, front, behind, hsplit, hfront⟩ := List.find?_eq_some_iff_append.mp hfound
    obtain ⟨release, hparse⟩ := exists_of_toBool hversion
    have htag : tag ∈ r.listedTags := by simp [hsplit]
    refine ⟨((Repository.mem_listedTags hlisted).mp htag).1, release, hparse, ?_⟩
    intro other hother release' hparse'
    have hmem := hlist hother hparse'
    have hsorted := Repository.sorted_listedTags hlisted
    rw [hsplit] at hmem hsorted
    refine Release.covers_of_compareNames hparse hparse' ?_
    rcases List.mem_append.mp hmem with hmem | hmem
    · -- everything in front is no version
      have := hfront other hmem
      rw [hparse'] at this
      cases this
    · rcases List.mem_cons.mp hmem with rfl | hmem
      · have hsame : compareNames other other = .eq := Std.ReflCmp.compare_self
        rw [hsame]
        decide
      · exact List.rel_of_pairwise_cons (List.pairwise_append.mp hsorted).2.1 hmem

/-- A repository at the root with some tags at its commit. -/
def withTags (names : List String) : Repository :=
  { initial "main" (.branch "main") with tags := names.map fun name => (name, 0) }

/-- The tenth pre-release is later than the ninth. -/
theorem latestTag_newest_pre :
    latestTag ⟨"", {}⟩ (.single "package.json" "1.0.0")
      (some (withTags ["v1.2.0-rc.9", "nightly", "v1.1", "v1.2.0-rc.10"])) = .ok (some "v1.2.0-rc.10") := by
  have hlocate : locate ⟨"", {}⟩ (.single "package.json" "1.0.0")
      (some (withTags ["v1.2.0-rc.9", "nightly", "v1.1", "v1.2.0-rc.10"])) = .ok (_, []) := rfl
  have hlisted : (withTags ["v1.2.0-rc.9", "nightly", "v1.1", "v1.2.0-rc.10"]).ListsNames := by
    unfold Repository.ListsNames
    decide +kernel
  have hnine : Release.parse "v1.2.0-rc.9" = .ok ⟨⟨1, 2, 0, ["rc", "9"], []⟩, true⟩ := by decide +kernel
  have hten : Release.parse "v1.2.0-rc.10" = .ok ⟨⟨1, 2, 0, ["rc", "10"], []⟩, true⟩ := by decide +kernel
  have holder : Release.parse "v1.1" = .ok ⟨.plain 1 1 0, true⟩ := by decide +kernel
  obtain ⟨found, htag, hnone, hfound⟩ := latestTag_newest hlocate hlisted
  rw [htag]
  cases found with
  | none => exact absurd hten (hnone.mp rfl _ (by decide) _)
  | some tag =>
    obtain ⟨hmem, release, hparse, hcovers⟩ := hfound tag rfl
    have hcover := hcovers "v1.2.0-rc.10" (by decide) _ hten
    have hcases : tag = "v1.2.0-rc.9" ∨ tag = "nightly" ∨ tag = "v1.1" ∨ tag = "v1.2.0-rc.10" := by
      simpa [withTags] using hmem
    rcases hcases with rfl | rfl | rfl | rfl
    · cases hparse.symm.trans hnine
      have hsimple : Version.IsSimple "9" ∧ Version.IsSimple "10" :=
        ⟨.inl (List.all_eq_true.mp (by decide)), .inl (List.all_eq_true.mp (by decide))⟩
      have hcomparable : Version.Comparable ["rc", "9"] ["rc", "10"] :=
        ⟨fun _ => ⟨fun heq => absurd heq (by decide), fun _ => hsimple⟩, fun hne => absurd rfl hne⟩
      exact absurd (hcover.precedence rfl ⟨fun _ => by decide, fun _ => hcomparable⟩) (by decide +kernel)
    · cases hparse
    · cases hparse.symm.trans holder
      exact absurd (hcover.numbers rfl) (by decide +kernel)
    · rfl

/-- Names that are in order already stay as they are. -/
theorem tagsByVersion_withTags {names : List String} (h : names.Pairwise fun a b => compareNames a b != .lt) :
    (withTags names).tagsByVersion = names := by
  rw [Repository.tagsByVersion, withTags, List.map_map, show Prod.fst ∘ (fun name : String => (name, 0)) = id from rfl,
    List.map_id, List.mergeSort_of_pairwise h]

/-- **A pre-release is taken in front of its release, and a mark in front of later versions**, and where there is white
space around a version in a tag, the tag is taken for that version. -/
theorem latestTag_prerelease :
    latestTag ⟨"", {}⟩ (.single "package.json" "1.0.0") (some (withTags ["v1.0.0-rc.1", "v1.0.0", "1.1.0"])) =
        .ok (some "v1.0.0-rc.1") ∧
      Release.parse "v1.0.0-rc.1" = .ok ⟨⟨1, 0, 0, ["rc", "1"], []⟩, true⟩ ∧
      Release.parse "v1.0.0" = .ok ⟨.plain 1 0 0, true⟩ ∧ Release.parse "1.1.0" = .ok ⟨.plain 1 1 0, false⟩ ∧
      Version.precedence ⟨1, 0, 0, ["rc", "1"], []⟩ (.plain 1 0 0) = .lt ∧
      Version.precedence (.plain 1 0 0) (.plain 1 1 0) = .lt ∧
      latestTag ⟨"", {}⟩ (.single "package.json" "1.0.0") (some (withTags ["v1.0.0\u00a0"])) = .ok (some "v1.0.0") ∧
      (Release.parse "v1.0.0\u00a0").toBool = false := by
  have htags : (withTags ["v1.0.0-rc.1", "v1.0.0", "1.1.0"]).tagsByVersion = ["v1.0.0-rc.1", "v1.0.0", "1.1.0"] :=
    tagsByVersion_withTags (by decide +kernel)
  have htags' : (withTags ["v1.0.0\u00a0"]).tagsByVersion = ["v1.0.0\u00a0"] := tagsByVersion_withTags (by decide)
  rw [latestTag_of_locate rfl, latestTag_of_locate rfl, Repository.listedTags, Repository.listedTags, htags, htags']
  decide +kernel

end Checkout
end ManifestBump

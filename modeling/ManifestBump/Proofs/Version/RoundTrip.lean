import ManifestBump.Proofs.Version.Text

/-! Releases that are written and read again.

What has been read has valid identifiers (`Release.wellFormed_of_parse`), every bump leaves a version with valid
identifiers (`Release.wellFormed_of_bumps`), and a release with valid identifiers reads back from the text it is
written with (`Release.parse_text_of_wellFormed`). That text is the one that was read, with zeros for the numbers
that are missing in it (`Release.text_of_spelled`). -/
namespace ManifestBump
open Text

namespace Release

/-! ### What is written reads back -/

theorem wellFormed_of_bump {r next : Release} {level : Level} (h : r.bump level = .ok next) :
    next.version.WellFormed := by
  unfold bump at h
  split at h
  · rename_i version hbump
    cases h
    exact (Version.isPlain_of_bump? hbump).wellFormed
  · cases h

/-- One bump after another. -/
def bumps (r : Release) (levels : List Level) : Except VersionError Release := levels.foldlM bump r

/-- Whatever levels a version is bumped at, its identifiers stay valid. -/
theorem wellFormed_of_bumps {r later : Release} {levels : List Level} (hr : r.version.WellFormed)
    (h : r.bumps levels = .ok later) : later.version.WellFormed := by
  induction levels generalizing r with
  | nil =>
    cases h
    exact hr
  | cons level levels ih =>
    cases hbump : r.bump level with
    | error e => simp [bumps, hbump, bind, Except.bind] at h
    | ok next =>
      refine ih (wellFormed_of_bump hbump) ?_
      simpa [bumps, hbump, bind, Except.bind] using h

/-! ### How the text changes -/

/-- A character that does not begin identifiers. -/
def isCore (c : Char) : Bool := c != '-' && c != '+'

/-- How many numbers a text has in front of its identifiers, where dots divide them. -/
def numberCount (text : String) : Nat := (text.toList.takeWhile isCore).count '.' + 1

/-- The zeros that are missing in a text with fewer than three numbers. -/
def missing (text : String) : String := String.join (List.replicate (3 - numberCount text) ".0")

/-- What is counted is the dots in front of the identifiers; a mark at the front has none. -/
theorem numberCount_eq {text : String} {marked : Bool} {core tags : List Char}
    (htext : text.toList = (if marked then ['v'] else []) ++ (core ++ tags)) (hcore : ∀ c ∈ core, isCore c = true)
    (htags : Stops isCore tags) : numberCount text = core.count '.' + 1 := by
  cases marked with
  | false =>
    rw [numberCount, htext, if_neg Bool.false_ne_true, List.nil_append, takeWhile_append hcore htags]
  | true =>
    have hmarked : ∀ c ∈ 'v' :: core, isCore c = true := List.forall_mem_cons.mpr ⟨rfl, hcore⟩
    rw [numberCount, htext, if_pos rfl, List.singleton_append, ← List.cons_append, takeWhile_append hmarked htags,
      List.count_cons_of_ne (by decide)]

theorem isCore_of_numeral {x : List Char} {n : Nat} (h : Numeral x n) : ∀ c ∈ x, isCore c = true := by
  intro c hc
  simpa [isCore] using (bare_of_numeral h c hc).2

theorem isCore_dot {x y : List Char} (hx : ∀ c ∈ x, isCore c = true) (hy : ∀ c ∈ y, isCore c = true) :
    ∀ c ∈ x ++ '.' :: y, isCore c = true :=
  List.forall_mem_append.mpr ⟨hx, List.forall_mem_cons.mpr ⟨rfl, hy⟩⟩

/-- **A release is written as it was read**, with zeros for the numbers that are missing. -/
theorem text_of_spelled {text : String} {r : Release} (h : Spelled text.toList r) : r.text = text ++ missing text := by
  obtain ⟨v, marked⟩ := r
  obtain ⟨body, htext, hbody⟩ := h
  apply String.toList_inj.mp
  rw [toList_text, String.toList_append, htext, List.append_assoc]
  refine (List.append_right_inj _).mpr ?_
  dsimp only at htext hbody ⊢
  cases hbody with
  | major hx =>
    have hcount : numberCount text = 1 := by
      have hcut := numberCount_eq (by rw [htext, List.append_nil]) (isCore_of_numeral hx) stops_nil
      rw [hcut, (bare_of_numeral hx).count_eq]
    rw [missing, hcount, Version.toList_text_major, numeral_iff.mp hx]
    rfl
  | minor hx hy =>
    have hcount : numberCount text = 2 := by
      have hcut := numberCount_eq (by rw [htext, List.append_nil])
        (isCore_dot (isCore_of_numeral hx) (isCore_of_numeral hy)) stops_nil
      rw [hcut, List.count_append, List.count_cons_self, (bare_of_numeral hx).count_eq, (bare_of_numeral hy).count_eq]
    rw [missing, hcount, Version.toList_text_minor, numeral_iff.mp hx, numeral_iff.mp hy, List.append_assoc]
    rfl
  | @full x y z v hx hy hz hv =>
    have htags : Stops isCore (Version.tagged '-' v.pre ++ Version.tagged '+' v.build) :=
      Version.stops_tagged rfl v.pre (by simpa using Version.stops_tagged rfl v.build stops_nil)
    have hcore := isCore_dot (isCore_of_numeral hx) (isCore_dot (isCore_of_numeral hy) (isCore_of_numeral hz))
    have hcount : numberCount text = 3 := by
      have hcut := numberCount_eq (by simpa using htext) hcore htags
      rw [hcut, List.count_append, List.count_cons_self, List.count_append, List.count_cons_self,
        (bare_of_numeral hx).count_eq, (bare_of_numeral hy).count_eq, (bare_of_numeral hz).count_eq]
    rw [missing, hcount, Version.toList_text, numeral_iff.mp hx, numeral_iff.mp hy, numeral_iff.mp hz]
    exact (List.append_nil _).symm

/-- **What is written reads back, and as it was read**: the text of a release is the one that was read, with zeros
for the numbers that are missing, and it reads as that release again, as do the texts of all releases that are
bumped from it. -/
theorem parse_text_of_parse {text : String} {r : Release} (h : parse text = .ok r) :
    parse r.text = .ok r ∧ r.text = text ++ missing text ∧
      ∀ levels later, r.bumps levels = .ok later → parse later.text = .ok later :=
  ⟨parse_text_of_wellFormed (wellFormed_of_parse h), text_of_spelled (spelled_of_parse h),
    fun _ _ hbumps => parse_text_of_wellFormed (wellFormed_of_bumps (wellFormed_of_parse h) hbumps)⟩

/-- Two numbers become three, and two bumps later the version still reads back. -/
theorem parse_text_of_parse_short :
    parse "v1.2" = .ok ⟨.plain 1 2 0, true⟩ ∧ parse (text ⟨.plain 1 2 0, true⟩) = .ok ⟨.plain 1 2 0, true⟩ ∧
      text ⟨.plain 1 2 0, true⟩ = "v1.2" ++ missing "v1.2" ∧
      bumps ⟨.plain 1 2 0, true⟩ [.minor, .patch] = .ok ⟨.plain 1 3 1, true⟩ ∧
      parse (text ⟨.plain 1 3 1, true⟩) = .ok ⟨.plain 1 3 1, true⟩ := by
  have hread : parse "v1.2" = .ok ⟨.plain 1 2 0, true⟩ := by decide +kernel
  have hbumps : bumps ⟨.plain 1 2 0, true⟩ [.minor, .patch] = .ok ⟨.plain 1 3 1, true⟩ := by decide +kernel
  obtain ⟨hback, htext, hlater⟩ := parse_text_of_parse hread
  exact ⟨hread, hback, htext, hbumps, hlater _ _ hbumps⟩

end Release
end ManifestBump

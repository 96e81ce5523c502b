import ManifestBump.Proofs.Text.Lines
import ManifestBump.Proofs.Yaml.Scalar

/-! What is read of a line does not depend on the lines behind it.

Every reader stops at the line feed as it stops at the end of the text (`value?_append`,
`opensBlock_append`), and no key holds a line feed. So a key and what is behind its colon are read
from the line alone (`leafOf?_append`, `parentOf?_append`). -/
namespace ManifestBump.Yaml
open Text

/-! ### Readers at a line feed -/

section LineFeed
variable {text : List Char} (h : '\n' ∉ text) (more : List Char)
include h

theorem lineEnd?_append : lineEnd? (text ++ '\n' :: more) = lineEnd? text := by
  match text with
  | [] => rfl
  | [c] =>
    have hc : c ≠ '\n' := fun heq => h (by simp [heq])
    by_cases hr : c = '\r'
    · subst hr
      rfl
    · simp [lineEnd?, hc, hr]
  | c :: d :: rest =>
    have hc : c ≠ '\n' := fun heq => h (by simp [heq])
    have hd : d ≠ '\n' := fun heq => h (by simp [heq])
    by_cases hr : c = '\r'
    · subst hr
      simp [lineEnd?, hd]
    · simp [lineEnd?, hc, hr]

theorem not_mem_dropWhile (p : Char → Bool) : '\n' ∉ text.dropWhile p :=
  fun hmem => h ((List.dropWhile_sublist _).subset hmem)

theorem trail?_append : trail? (text ++ '\n' :: more) = trail? text := by
  have hindent : isIndent '\n' = false := by decide
  have hline : inLine '\n' = false := by decide
  have hrest := not_mem_dropWhile h isIndent
  simp only [trail?, takeWhile_append_cons hindent, dropWhile_append_cons hindent]
  cases hcut : text.dropWhile isIndent with
  | nil => rfl
  | cons c rest =>
    rw [hcut] at hrest
    by_cases hc : c = '#'
    · subst hc
      have hend := lineEnd?_append (not_mem_dropWhile hrest inLine) more
      simp only [List.cons_append] at hend ⊢
      rw [← List.cons_append, dropWhile_append_cons hline, takeWhile_append_cons hline, hend]
    · have hend := lineEnd?_append hrest more
      rw [List.cons_append] at hend
      simp [hc, hend]

theorem opensBlock_append : opensBlock (text ++ '\n' :: more) = opensBlock text := by
  have hline : inLine '\n' = false := by decide
  cases text with
  | nil => rfl
  | cons c rest =>
    have hrest := lineEnd?_append (not_mem_dropWhile h inLine) more
    have hwhole := lineEnd?_append h more
    simp only [opensBlock, List.cons_append]
    rw [← List.cons_append, dropWhile_append_cons hline, hrest, hwhole]

theorem quoted?_append {quote : Char} (hquote : quote ≠ '\n') :
    quoted? quote (text ++ '\n' :: more) = quoted? quote text := by
  have hinner : (fun c => c != quote && inLine c) '\n' = false := by simp [inLine]
  have hrest := not_mem_dropWhile h fun c => c != quote && inLine c
  simp only [quoted?, dropWhile_append_cons (p := fun c => c != quote && inLine c) hinner,
    takeWhile_append_cons (p := fun c => c != quote && inLine c) hinner]
  cases hcut : text.dropWhile fun c => c != quote && inLine c with
  | nil => simp [Ne.symm hquote]
  | cons c rest =>
    rw [hcut] at hrest
    have htrail := trail?_append (fun hmem => hrest (List.mem_cons_of_mem c hmem)) more
    simp only [List.cons_append, htrail]

theorem bareRest?_append : bareRest? (text ++ '\n' :: more) = bareRest? text := by
  induction text with
  | nil => rfl
  | cons c rest ih =>
    have hrest : '\n' ∉ rest := fun hmem => h (List.mem_cons_of_mem _ hmem)
    have htrail := trail?_append h more
    rw [List.cons_append] at htrail ⊢
    rw [bareRest?, bareRest?, htrail, ih hrest]

theorem scalar?_append : scalar? (text ++ '\n' :: more) = scalar? text := by
  cases text with
  | nil => rfl
  | cons c rest =>
    have hrest : '\n' ∉ rest := fun hmem => h (List.mem_cons_of_mem _ hmem)
    rw [List.cons_append]
    by_cases hdouble : c = '"'
    · subst hdouble
      show quoted? '"' (rest ++ '\n' :: more) = quoted? '"' rest
      exact quoted?_append hrest more (by decide)
    · by_cases hsingle : c = '\''
      · subst hsingle
        show quoted? '\'' (rest ++ '\n' :: more) = quoted? '\'' rest
        exact quoted?_append hrest more (by decide)
      · rw [scalar?_cons hdouble hsingle, scalar?_cons hdouble hsingle, bareRest?_append hrest more]

theorem value?_append : value? (text ++ '\n' :: more) = value? text := by
  have hindent : isIndent '\n' = false := by decide
  simp only [value?, takeWhile_append_cons hindent, dropWhile_append_cons hindent,
    scalar?_append (not_mem_dropWhile h isIndent) more]

end LineFeed

/-! ### Keys on a line -/

theorem not_mem_of_spelled {key lead : List Char} {indent : Nat} (hkey : '\n' ∉ key)
    (h : Spelled key lead indent) : '\n' ∉ lead := by
  obtain ⟨hspaces, hopening, hclosing, hblanks⟩ := h
  have hedge : ∀ edge : List Char, (∀ c ∈ edge, isEdge c = true) → '\n' ∉ edge := by
    intro edge hall hmem
    exact absurd (hall _ hmem) (by decide)
  have hspaces' := hedge _ fun c hc => isEdge_of_isIndent (hspaces c hc)
  have hblanks' := hedge _ fun c hc => isEdge_of_isIndent (hblanks c hc)
  have hopening' := hedge _ (isEdge_of_optionalQuote hopening)
  have hclosing' := hedge _ (isEdge_of_optionalQuote hclosing)
  simp [hkey, hspaces', hblanks', hopening', hclosing']

/-- What stands in front of a text without a line feed is in its first line. -/
theorem exists_rest_of_line {line more lead rest : List Char} (hline : Line line more)
    (hlead : '\n' ∉ lead) (h : line ++ more = lead ++ rest) :
    ∃ tail, line = lead ++ tail ∧ rest = tail ++ more := by
  rcases List.append_eq_append_iff.mp h with ⟨tail, rfl, hmore⟩ | ⟨tail, rfl, rfl⟩
  · cases hline with
    | ended hbody more => exact absurd (by simp) hlead
    | last hne hbody =>
      obtain ⟨rfl, rfl⟩ := List.append_eq_nil_iff.mp hmore.symm
      exact ⟨[], by simp, by simp⟩
  · exact ⟨tail, rfl, rfl⟩

theorem frontOf?_append {key line more : List Char} (hkey : '\n' ∉ key) (hline : Line line more) :
    frontOf? key (line ++ more) =
      (frontOf? key line).map fun front => (front.1, front.2.1, front.2.2 ++ more) := by
  cases hfront : frontOf? key line with
  | some front =>
    obtain ⟨indent, lead, rest⟩ := front
    obtain ⟨rfl, hspelled, hmax⟩ := frontOf?_eq_some_iff.mp hfront
    exact frontOf?_eq_some_iff.mpr ⟨List.append_assoc .., hspelled, hmax⟩
  | none =>
    rw [Option.map_none, frontOf?_eq_none_iff]
    intro lead rest indent hspelled heq
    obtain ⟨tail, rfl, -⟩ := exists_rest_of_line hline (not_mem_of_spelled hkey hspelled) heq
    exact frontOf?_eq_none_iff.mp hfront lead tail indent hspelled rfl

/-- A reader that stops at line feeds, at the end of a line. -/
theorem reader_append {α : Type} (read : List Char → α)
    (hread : ∀ text, '\n' ∉ text → ∀ more, read (text ++ '\n' :: more) = read text)
    {line more lead rest : List Char} (hline : Line line more) (hlead : '\n' ∉ lead)
    (h : line = lead ++ rest) : read (rest ++ more) = read rest := by
  cases hline with
  | @ended body hbody more =>
    rcases List.append_eq_append_iff.mp h with ⟨tail, rfl, htail⟩ | ⟨tail, rfl, htail⟩
    · cases tail with
      | nil =>
        rw [← (List.nil_append rest ▸ htail : ['\n'] = rest)]
        exact (hread [] (by simp) more).trans (hread [] (by simp) []).symm
      | cons c tail =>
        obtain ⟨rfl, -⟩ := List.cons.inj htail
        exact absurd (by simp) hlead
    · have htail' : '\n' ∉ tail := fun hmem => hbody (List.mem_append_right _ hmem)
      rw [htail, List.append_assoc, List.singleton_append, hread tail htail' more, hread tail htail' []]
  | last hne hbody => rw [List.append_nil]

/-- **A value is read from its line.** -/
theorem leafOf?_append {key line more : List Char} (hkey : '\n' ∉ key) (hline : Line line more) :
    leafOf? key (line ++ more) = leafOf? key line := by
  unfold leafOf?
  rw [leaf?_eq, leaf?_eq, frontOf?_append hkey hline]
  cases hfront : frontOf? key line with
  | none => rfl
  | some front =>
    obtain ⟨indent, lead, rest⟩ := front
    obtain ⟨heq, hspelled, -⟩ := frontOf?_eq_some_iff.mp hfront
    have hvalue := reader_append value? (fun text h more => value?_append h more) hline
      (not_mem_of_spelled hkey hspelled) heq
    simp only [Option.map_some, Option.bind_some, hvalue]

/-- **Whether a key opens a block is read from its line.** -/
theorem parentOf?_append {key line more : List Char} (hkey : '\n' ∉ key) (hline : Line line more) :
    parentOf? key (line ++ more) = parentOf? key line := by
  unfold parentOf?
  rw [parent?_eq, parent?_eq, frontOf?_append hkey hline]
  cases hfront : frontOf? key line with
  | none => rfl
  | some front =>
    obtain ⟨indent, lead, rest⟩ := front
    obtain ⟨heq, hspelled, -⟩ := frontOf?_eq_some_iff.mp hfront
    have hopens := reader_append opensBlock (fun text h more => opensBlock_append h more) hline
      (not_mem_of_spelled hkey hspelled) heq
    simp only [Option.map_some, Option.bind_some, hopens]

/-- From a place in its front on, a line ends where it ends. -/
theorem pastLine_eq {line more lead rest : List Char} {n : Nat} (hline : Line line more)
    (hlead : '\n' ∉ lead) (h : line = lead ++ rest) (hn : n ≤ lead.length) :
    pastLine (line ++ more) n = line.length := by
  have hall : ∀ text : List Char, '\n' ∉ text → ∀ c ∈ text.drop n, (c != '\n') = true := by
    intro text htext c hc
    rw [bne_iff_ne]
    intro heq
    subst heq
    exact htext (List.mem_of_mem_drop hc)
  cases hline with
  | @ended body hbody more =>
    have hle : n ≤ body.length := by
      have hlen := congrArg List.length h
      simp only [List.length_append, List.length_singleton] at hlen
      rcases Nat.lt_or_ge body.length lead.length with hlt | hge
      · have hrest : rest = [] := List.length_eq_zero_iff.mp (by omega)
        rw [hrest, List.append_nil] at h
        exact absurd (by rw [← h]; simp) hlead
      · omega
    have htake : (body.drop n ++ '\n' :: more).takeWhile (· != '\n') = body.drop n :=
      takeWhile_append (hall body hbody) (stops_cons_iff.mpr (by decide))
    have hdrop : (body ++ ['\n'] ++ more).drop n = body.drop n ++ '\n' :: more := by
      rw [List.append_assoc, List.singleton_append, List.drop_append_of_le_length hle]
    have hmem : (body.drop n ++ '\n' :: more).contains '\n' = true := by simp
    simp only [pastLine, hdrop, htake, hmem, if_true, List.length_append, List.length_drop,
      List.length_singleton]
    omega
  | last hne hbody =>
    have hle : n ≤ line.length := by
      rw [h, List.length_append]
      omega
    have htake : (line.drop n).takeWhile (· != '\n') = line.drop n := by
      have := takeWhile_append (hall line hbody) (stops_nil (p := (· != '\n')))
      rwa [List.append_nil] at this
    have hmem : (line.drop n).contains '\n' = false := by
      rw [List.contains_eq_mem, decide_eq_false_iff_not]
      exact fun hmem => hbody (List.mem_of_mem_drop hmem)
    rw [List.append_nil]
    simp only [pastLine, htake, hmem, Bool.false_eq_true, if_false, List.length_drop]
    omega

end ManifestBump.Yaml

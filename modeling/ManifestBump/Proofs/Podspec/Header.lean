import ManifestBump.Manifest.Podspec
import ManifestBump.Proofs.Text.Search
import ManifestBump.Proofs.Version.Exchange

/-! The block variable of a podspec in which a quoted version is exchanged.

A header holds no quotes up to its `do`, and none between the bars, and no bar stands in a version.
So the version between its quotes is passed over whatever it is, and the same variable is found
(`discover?_exchange`). -/
namespace ManifestBump.Podspec
open Text

theorem isQuote_iff {c : Char} : isQuote c = true ↔ c = '"' ∨ c = '\'' := by simp [isQuote]

/-! ### Up to a quote -/

section Quote
variable {quote : Char} (hquote : isQuote quote = true)
include hquote

theorem isBlank_of_isQuote : isBlank quote = false := by
  rcases isQuote_iff.mp hquote with rfl | rfl <;> decide

theorem isWord_of_isQuote : isWord quote = false := by
  rcases isQuote_iff.mp hquote with rfl | rfl <;> decide

theorem ne_of_isQuote {c : Char} (hc : isQuote c = false) : quote ≠ c := by
  intro heq
  subst heq
  rw [hquote] at hc
  cases hc

/-- Bars are looked for in front of the next quote only. -/
theorem barred?_append (text rest rest' : List Char) :
    barred? (text ++ quote :: rest) = barred? (text ++ quote :: rest') := by
  have hbar := ne_of_isQuote hquote (c := '|') (by decide)
  have hdo : quote ∉ ['d', 'o'] := by
    rcases isQuote_iff.mp hquote with rfl | rfl <;> decide
  simp only [barred?, after?_append_cons hdo]
  cases after? ['d', 'o'] text with
  | none => rfl
  | some text =>
    simp only [Option.map_some, Option.bind_eq_bind, Option.bind_some,
      dropWhile_append_cons (isBlank_of_isQuote hquote)]
    cases text.dropWhile isBlank with
    | nil => simp [hbar]
    | cons c text =>
      by_cases hc : c = '|'
      · subst hc
        simp only [List.cons_append, dropWhile_append_cons (isBlank_of_isQuote hquote),
          dropWhile_append_cons (isWord_of_isQuote hquote), takeWhile_append_cons (isWord_of_isQuote hquote)]
        cases ((text.dropWhile isBlank).dropWhile isWord).dropWhile isBlank with
        | nil => cases (text.dropWhile isBlank).takeWhile isWord <;> simp [hbar]
        | cons d text' =>
          cases (text.dropWhile isBlank).takeWhile isWord with
          | nil => rfl
          | cons n name =>
            by_cases hd : d = '|'
            · subst hd
              rfl
            · simp [hd]
      · simp [hc]

theorem barred?_cons (rest : List Char) : barred? (quote :: rest) = none := by
  simp [barred?, after?, (ne_of_isQuote hquote (c := 'd') (by decide)).symm]

end Quote

theorem mem_of_barred? {text name : List Char} (h : barred? text = some name) : '|' ∈ text := by
  simp only [barred?, Option.bind_eq_bind, Option.bind_eq_some_iff] at h
  obtain ⟨tail, htail, h⟩ := h
  rw [after?_eq_some_iff] at htail
  split at h
  · rename_i text' heq
    have hmem : '|' ∈ tail.dropWhile isBlank := by rw [heq]; exact List.mem_cons_self
    rw [htail]
    exact List.mem_append_right _ ((List.dropWhile_sublist _).subset hmem)
  · cases h

/-! ### Over a version -/

section Version
variable {quote quote' : Char} (hquote : isQuote quote = true) (hquote' : isQuote quote' = true)
include hquote'

theorem blockVariable?_cons_quote (last : Char) (rest : List Char) :
    blockVariable? last (quote' :: rest) = blockVariable? quote' rest := by
  have hline := ne_of_isQuote hquote' (c := '\n') (by decide)
  rw [blockVariable?, barred?_cons hquote', if_neg hline]
  split <;> rename_i h
  · split at h <;> cases h
  · rfl

/-- No bar stands in a version. -/
theorem blockVariable?_version (last : Char) {version : List Char}
    (hversion : ∀ c ∈ version, isVersionChar c = true) (rest : List Char) :
    blockVariable? last (version ++ quote' :: rest) = blockVariable? quote' rest := by
  induction version generalizing last with
  | nil => exact blockVariable?_cons_quote hquote' last rest
  | cons c version ih =>
    have hnone : barred? (c :: (version ++ quote' :: rest)) = none := by
      rw [← List.cons_append, barred?_append hquote' (c :: version) rest []]
      by_contra hne
      obtain ⟨name, hname⟩ := Option.ne_none_iff_exists'.mp hne
      rcases List.mem_append.mp (mem_of_barred? hname) with hmem | hmem
      · exact absurd (hversion _ hmem) (by decide)
      · rw [List.mem_singleton] at hmem
        rw [← hmem] at hquote'
        exact absurd hquote' (by decide)
    have hline := ne_of_isVersionChar (hversion c List.mem_cons_self) (d := '\n') (by decide)
    rw [List.cons_append, blockVariable?, hnone, if_neg hline,
      ih c fun d hd => hversion d (List.mem_cons_of_mem _ hd)]
    split <;> rename_i h
    · split at h <;> cases h
    · rfl

include hquote

theorem blockVariable?_exchange (last : Char) (text : List Char) {version version' : List Char}
    (hversion : ∀ c ∈ version, isVersionChar c = true) (hversion' : ∀ c ∈ version', isVersionChar c = true)
    (rest : List Char) :
    blockVariable? last (text ++ quote :: (version ++ quote' :: rest)) =
      blockVariable? last (text ++ quote :: (version' ++ quote' :: rest)) := by
  induction text generalizing last with
  | nil =>
    rw [List.nil_append, List.nil_append, blockVariable?_cons_quote hquote,
      blockVariable?_cons_quote hquote, blockVariable?_version hquote' _ hversion,
      blockVariable?_version hquote' _ hversion']
  | cons c text ih =>
    have hsame := barred?_append hquote (c :: text) (version ++ quote' :: rest) (version' ++ quote' :: rest)
    rw [List.cons_append] at hsame
    rw [List.cons_append, blockVariable?, hsame, ih]
    rfl

/-- A header is read alike, whatever a quoted version behind it is. -/
theorem header?_exchange (text : List Char) {version version' : List Char}
    (hversion : ∀ c ∈ version, isVersionChar c = true) (hversion' : ∀ c ∈ version', isVersionChar c = true)
    (rest : List Char) :
    header? (text ++ quote :: (version ++ quote' :: rest)) =
      header? (text ++ quote :: (version' ++ quote' :: rest)) := by
  have hstart : isNameStart quote = false := by
    rcases isQuote_iff.mp hquote with rfl | rfl <;> decide
  have hname : (isWord quote || quote == ':') = false := by
    rcases isQuote_iff.mp hquote with rfl | rfl <;> decide
  have hnew : quote ∉ ['.', 'n', 'e', 'w'] := by
    rcases isQuote_iff.mp hquote with rfl | rfl <;> decide
  simp only [header?, dropWhile_append_cons (isBlank_of_isQuote hquote)]
  cases text.dropWhile isBlank with
  | nil => simp [hstart]
  | cons c text =>
    simp only [List.cons_append, dropWhile_append_cons (p := fun d => isWord d || d == ':') hname,
      after?_append_cons hnew]
    cases after? ['.', 'n', 'e', 'w'] (text.dropWhile fun d => isWord d || d == ':') with
    | none => rfl
    | some text =>
      have hsame := blockVariable?_exchange hquote hquote' 'w' text hversion hversion' rest
      cases text with
      | nil =>
        simp only [List.nil_append] at hsame
        simp [hsame]
      | cons d text =>
        simp only [List.cons_append] at hsame
        simp [hsame]

end Version

/-! ### The first header -/

/-- The variable of a header that begins the line at a place. -/
def headerAt (text : List Char) (n : Nat) : Option (List Char) :=
  if (Cursor.at text n).atLineStart then header? (text.drop n) else none

theorem discover?_eq (text : List Char) :
    discover? text = (firstAnswer (headerAt text) 0 text.length).map String.ofList := by
  rw [discover?, search_eq_firstAnswer]
  · refine congrArg _ (firstAnswer_congr fun n _ _ => ?_)
    have hrest : (Cursor.at text n).rest = text.drop n := rfl
    unfold headerAt
    simp only [hrest]
    cases (Cursor.at text n).atLineStart with
    | false => rfl
    | true => cases header? (text.drop n) <;> rfl
  · constructor
    · intro cursor hrest
      simp only [hrest]
      split <;> rfl
    · intro n skip m hpass hlt hle
      have hzero : skip = 0 := by
        split at hpass
        · cases hpass
          rfl
        · split at hpass <;> cases hpass
          rfl
      omega

/-- Headers begin at the same places, and name the same variable. -/
theorem headerAt_shift {e : Edit} (hversions : e.Versions) {x b : List Char} {quote quote' : Char}
    (hquote : isQuote quote = true) (hquote' : isQuote quote' = true) (hfront : e.front = x ++ [quote])
    (hback : e.back = quote' :: b) {n : Nat} (hn : e.Outside n) :
    headerAt e.after (e.shift n) = headerAt e.before n := by
  unfold headerAt
  rw [Exchange.atLineStart_shift hversions hn]
  rcases hn with hn | hn
  · by_cases hlt : n ≤ x.length
    · have hsame := header?_exchange hquote hquote' (x.drop n) hversions.new.chars hversions.old.chars b
      have hdrop : ∀ version, (e.front ++ version ++ e.back).drop n =
          x.drop n ++ quote :: (version ++ quote' :: b) := by
        intro version
        rw [Edit.drop_front hn, hfront, hback, List.drop_append_of_le_length hlt]
        simp
      rw [Edit.shift_of_le hn, Edit.after, hdrop e.new, hsame, ← hdrop e.old]
      rfl
    · -- Right behind the quote no line begins.
      have hline : (Cursor.at e.before n).atLineStart = false := by
        have htake : e.before.take n = x ++ [quote] := by
          have hlen : n = (x ++ [quote]).length := by
            rw [hfront, List.length_append, List.length_singleton] at hn
            rw [List.length_append, List.length_singleton]
            omega
          rw [Edit.before, hfront, List.append_assoc, hlen, List.take_left]
        simp [Cursor.at, Cursor.atLineStart, htake, ne_of_isQuote hquote (c := '\n') (by decide)]
      rw [hline]
      rfl
  · rw [← Edit.drop_eq_drop hversions.proper hn]

/-- **A quoted version can be exchanged without a change to the block variable.** -/
theorem discover?_exchange {e : Edit} (hversions : e.Versions) {x b : List Char} {quote quote' : Char}
    (hquote : isQuote quote = true) (hquote' : isQuote quote' = true) (hfront : e.front = x ++ [quote])
    (hback : e.back = quote' :: b) : discover? e.after = discover? e.before := by
  have hshift := fun n (hn : e.Outside n) => headerAt_shift hversions hquote hquote' hfront hback hn
  have hinside : ∀ version, Release.Written version → ∀ m, e.front.length < m →
      m < e.front.length + version.length → headerAt (e.front ++ version ++ e.back) m = none := by
    intro version hversion m hl hr
    obtain ⟨k, rfl⟩ := Nat.exists_eq_add_of_lt hl
    unfold headerAt
    rw [Nat.add_assoc, Exchange.atLineStart_inside hversion (by omega) (by omega)]
    rfl
  rw [discover?_eq, discover?_eq]
  congr 1
  have hfollows : Follows (fun _ => True) (fun name name' => name' = name)
      (firstAnswer (headerAt e.before) 0 e.before.length)
      (firstAnswer (headerAt e.after) (e.shift 0) (e.shift e.before.length)) := by
    have hafter : ∀ m, e.front.length < m → m < e.front.length + e.new.length → headerAt e.after m = none :=
      hinside e.new hversions.new
    refine Edit.firstAnswer_follows hversions.proper (fun n hn => ?_) (fun n name hname _ => ?_) hafter
      (.inl (Nat.zero_le _)) Edit.outside_length
    · rw [hshift n hn]
      exact ⟨id, fun name hname _ => ⟨name, hname, rfl⟩⟩
    · by_contra hin
      simp only [Edit.Outside, Edit.stop, not_or, not_le] at hin
      have hnot : headerAt e.before n = none := hinside e.old hversions.old n hin.1 hin.2
      rw [hnot] at hname
      cases hname
  rw [Edit.shift_of_le (Nat.zero_le _), ← Edit.length_after hversions.proper] at hfollows
  cases hfirst : firstAnswer (headerAt e.before) 0 e.before.length with
  | none => exact hfollows.none hfirst
  | some name =>
    obtain ⟨name', hname', rfl⟩ := hfollows.some name hfirst trivial
    exact hname'

end ManifestBump.Podspec

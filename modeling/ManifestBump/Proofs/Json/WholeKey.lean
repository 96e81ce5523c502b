import ManifestBump.Proofs.Json.Literal

/-! Keys that were found, and the strings they stand in.

A key is found where a string begins (`leaf_of_findIn`). It is read up to a quote of either kind, but the string runs on
to the end that the outline sees, which is a quote of the kind it began with, or a line feed (`literal_of_runs`). So the
key is the whole string exactly if both quotes are of one kind and nothing ends the string in between
(`find?_wholeKey`). -/
namespace ManifestBump.Json
open Text

/-! ### How far a string runs -/

/-- How many characters of a text belong to the string that has begun in front of it. -/
inductive Runs (quote : Char) : List Char → Nat → Prop where
  /-- Up to its quote. -/
  | closed {body : List Char} (h : Body (endsString quote) body) (rest : List Char) :
      Runs quote (body ++ quote :: rest) (body.length + 1)
  /-- Up to a line feed, unfinished. -/
  | feed {body : List Char} (h : Body (endsString quote) body) (rest : List Char) :
      Runs quote (body ++ '\n' :: rest) body.length
  /-- Up to the end of the text. -/
  | whole {text : List Char} (h : Body (endsString quote) text) : Runs quote text text.length
  /-- Up to the end of the text, where a backslash has nothing to hide. -/
  | breaks {body : List Char} (h : Body (endsString quote) body) : Runs quote (body ++ ['\\']) (body.length + 1)

theorem Runs.behind {quote : Char} {x y : List Char} {k : Nat} (hx : Body (endsString quote) x)
    (h : Runs quote y k) : Runs quote (x ++ y) (x.length + k) := by
  cases h with
  | closed hy rest =>
    rw [← List.append_assoc, ← Nat.add_assoc, ← List.length_append]
    exact .closed (hx.append hy) rest
  | feed hy rest =>
    rw [← List.append_assoc, ← List.length_append]
    exact .feed (hx.append hy) rest
  | whole hy =>
    rw [← List.length_append]
    exact .whole (hx.append hy)
  | breaks hy =>
    rw [← List.append_assoc, ← Nat.add_assoc, ← List.length_append]
    exact .breaks (hx.append hy)

/-- Every string runs up to somewhere. -/
theorem exists_runs (quote : Char) (text : List Char) : ∃ k, Runs quote text k := by
  induction hlen : text.length using Nat.strong_induction_on generalizing text with
  | _ len ih =>
    have hbehind : ∀ {x y}, Body (endsString quote) x → y.length < len → ∃ k, Runs quote (x ++ y) k := by
      intro x y hx hlt
      obtain ⟨k, hk⟩ := ih _ hlt y rfl
      exact ⟨_, hk.behind hx⟩
    cases text with
    | nil => exact ⟨_, .whole .nil⟩
    | cons c text =>
      rw [List.length_cons] at hlen
      by_cases hquote : c = quote
      · subst hquote
        exact ⟨_, .closed .nil text⟩
      by_cases hfeed : c = '\n'
      · subst hfeed
        exact ⟨_, .feed .nil text⟩
      by_cases hslash : c = '\\'
      · subst hslash
        cases text with
        | nil => exact ⟨_, .breaks .nil⟩
        | cons d rest =>
          rw [List.length_cons] at hlen
          exact hbehind (x := ['\\', d]) (.hidden d .nil) (by omega)
      · have hend : endsString quote c = false := by simp [endsString, hquote, hfeed]
        exact hbehind (x := [c]) (.plain hend hslash .nil) (by omega)

/-- **The scan finds a string that runs so far.** -/
theorem Runs.scan {quote : Char} {text : List Char} {k : Nat} (h : Runs quote text k) (hquote : isQuote quote = true)
    (s n : Nat) : ∃ m rest, n ≤ m ∧ ∀ d, Outline.scanFrom (.string quote s) n d text =
      ⟨[⟨s, n + k⟩], []⟩ ++ Outline.scanFrom .code m d rest := by
  cases h with
  | closed h rest => exact ⟨_, rest, by omega, fun d => scanFrom_string hquote h s n d rest⟩
  | @feed body h rest =>
    refine ⟨n + body.length + 1, rest, by omega, fun d => ?_⟩
    rw [scanFrom_body h, Outline.scanFrom_cons]
    rcases isQuote_iff.mp hquote with rfl | rfl <;> rfl
  | whole h =>
    refine ⟨n, [], le_rfl, fun d => ?_⟩
    have hscan := scanFrom_body h s n d []
    rw [List.append_nil] at hscan
    rw [hscan]
    rfl
  | breaks h =>
    refine ⟨n, [], le_rfl, fun d => ?_⟩
    rw [scanFrom_body h]
    rfl

/-- A string runs up to one place only. -/
theorem Runs.unique {quote : Char} {text : List Char} {j k : Nat} (hquote : isQuote quote = true)
    (hj : Runs quote text j) (hk : Runs quote text k) : j = k := by
  obtain ⟨m, rest, -, hscan⟩ := hj.scan hquote 0 0
  obtain ⟨m', rest', -, hscan'⟩ := hk.scan hquote 0 0
  have hliterals := congrArg Outline.literals ((hscan 0).symm.trans (hscan' 0))
  simpa using (List.cons.inj hliterals).1

/-- **When a string is a key between quotes**: it runs up to the quote behind the key exactly if that is its own quote
and nothing ends it before, or if that quote is part of it and a line feed follows. -/
theorem runs_key_iff {opening closing : Char} {key rest : List Char} {k : Nat} (hopening : isQuote opening = true)
    (hrest : rest ≠ []) (h : Runs opening (key ++ closing :: rest) k) :
    k = key.length + 1 ↔ Body (endsString opening) key ∧ closing = opening ∨
      Body (endsString opening) (key ++ [closing]) ∧ rest.head? = some '\n' := by
  have hpos := List.length_pos_iff.mpr hrest
  constructor
  · rintro rfl
    generalize htail : key ++ closing :: rest = tail at h
    generalize hlen : key.length + 1 = k at h
    have htotal := congrArg List.length htail
    rw [List.length_append, List.length_cons] at htotal
    cases h with
    | closed hbody more =>
      obtain ⟨rfl, hmore⟩ := List.append_inj htail (by omega)
      exact .inl ⟨hbody, (List.cons.inj hmore).1⟩
    | @feed body hbody more =>
      have hsplit : (key ++ [closing]) ++ rest = body ++ '\n' :: more := by
        rw [← htail, List.append_assoc, List.singleton_append]
      obtain ⟨rfl, rfl⟩ := List.append_inj hsplit (by rw [List.length_append, List.length_singleton, hlen])
      exact .inr ⟨hbody, rfl⟩
    | whole hbody => omega
    | breaks hbody =>
      rw [List.length_append, List.length_singleton] at htotal
      omega
  · rintro (⟨hbody, rfl⟩ | ⟨hbody, hfeed⟩)
    · exact h.unique hopening (.closed hbody rest)
    · obtain ⟨more, rfl⟩ := List.head?_eq_some_iff.mp hfeed
      have hruns := Runs.feed hbody more
      rw [List.append_assoc, List.singleton_append, List.length_append, List.length_singleton] at hruns
      exact h.unique hopening hruns

/-! ### The literal of a string -/

/-- **The literal of a string is as long as the string**, and no other literal lies around its beginning. -/
theorem literal_of_runs {text tail : List Char} {s : Span} {quote : Char} {k : Nat}
    (hs : s ∈ (Outline.scan text).literals) (htext : text.drop s.start = quote :: tail)
    (hquote : isQuote quote = true) (h : Runs quote tail k) :
    s.stop = s.start + 1 + k ∧ ∀ t ∈ (Outline.scan text).literals, t.contains s.start = true → t = s := by
  obtain ⟨o, d, ho, hwhole⟩ := Outline.exists_scan_of_mem hs
  obtain ⟨m, rest, hm, hscan⟩ := h.scan hquote s.start (s.start + 1)
  rw [htext, scanFrom_opening hquote, hscan] at hwhole
  -- A literal lies in front of the string, or is the string, or lies behind it.
  have hmem : ∀ t ∈ (Outline.scan text).literals,
      t.stop ≤ s.start ∧ t.start < s.start ∨ t = ⟨s.start, s.start + 1 + k⟩ ∨ s.start < t.start := by
    intro t ht
    rw [hwhole, Outline.literals_append, List.mem_append, Outline.literals_append, List.mem_append,
      List.mem_singleton] at ht
    rcases ht with ht | ht | ht
    · exact .inl (ho t ht).symm
    · exact .inr (.inl ht)
    · have hcode : Outline.Mode.Within (m ≤ ·) .code := trivial
      have := ((Outline.scanFrom_within hcode d rest fun _ hk _ => hk).literals t ht).1
      exact .inr (.inr (by omega))
  have hself : s = ⟨s.start, s.start + 1 + k⟩ := by
    rcases hmem s hs with h | h | h
    · omega
    · exact h
    · omega
  refine ⟨congrArg Span.stop hself, fun t ht hat => ?_⟩
  simp only [Span.contains, Bool.and_eq_true, decide_eq_true_eq] at hat
  rcases hmem t ht with h | h | h
  · omega
  · exact h.trans hself.symm
  · omega

/-! ### Keys that were found -/

/-- The stretch of the last key of a path, from its opening quote up to its closing quote, where it was found. -/
def keySpan (path : KeyPath) (found : Occurrence) : Span :=
  ⟨found.full.start, found.full.start + path.leaf.toList.length + 2⟩

/-- **A key that was found is a whole string if its quotes agree.** It begins where a literal begins, and in no other
literal, and the value stands behind it. The literal is the key in its quotes exactly if both quotes are of one kind and
nothing ends the string in between, or if the string is unfinished and a line feed follows. -/
theorem find?_wholeKey {text : List Char} {path : KeyPath} {found : Occurrence} (h : find? text path = some found) :
    ∃ opening closing rest, ∃ s ∈ (Outline.scan text).literals, isQuote opening = true ∧ isQuote closing = true ∧
      text.drop found.full.start = opening :: (path.leaf.toList ++ closing :: rest) ∧
      s.start = found.full.start ∧
      (∀ t ∈ (Outline.scan text).literals, t.contains found.full.start = true → t = s) ∧
      (keySpan path found).stop ≤ found.value.start ∧
      (s = keySpan path found ↔ Body (endsString opening) path.leaf.toList ∧ closing = opening ∨
        Body (endsString opening) (path.leaf.toList ++ [closing]) ∧ rest.head? = some '\n') := by
  obtain ⟨opening, closing, before, behind, value, more, inner, hopening, hclosing, -, -, -, -, hstart, htext,
    hfound⟩ := exists_reading_of_find? h
  obtain ⟨rest, hrest, htext⟩ : ∃ rest, rest ≠ [] ∧
      text.drop found.full.start = opening :: (path.leaf.toList ++ closing :: rest) :=
    ⟨before ++ ':' :: (behind ++ (value ++ more)), by simp, by rw [htext]; simp [written]⟩
  have hvalue : (keySpan path found).stop ≤ found.value.start := by
    rw [hfound]
    simp only [keySpan, Slot.occurrence, Slot.behind, written, List.length_append, List.length_cons]
    omega
  obtain ⟨s, hs, hsn⟩ := List.any_eq_true.mp hstart
  have hsn : s.start = found.full.start := by simpa using hsn
  obtain ⟨k, hruns⟩ := exists_runs opening (path.leaf.toList ++ closing :: rest)
  obtain ⟨hstop, honly⟩ := literal_of_runs hs (by rw [hsn]; exact htext) hopening hruns
  rw [hsn] at honly hstop
  refine ⟨opening, closing, rest, s, hs, hopening, hclosing, htext, hsn, honly, hvalue, ?_⟩
  rw [← runs_key_iff hopening hrest hruns, keySpan, ← hsn]
  constructor
  · intro heq
    have := congrArg Span.stop heq
    simp only at this
    omega
  · intro heq
    obtain ⟨start, stop⟩ := s
    simp only [Span.mk.injEq, true_and] at hsn hstop ⊢
    omega

/-- A key that is not `version` but begins like it, up to a quote of the other kind and a colon. -/
def mixedQuotes : List Char := "\x7b\"version': 1.0\": 0, \"version\": \"2\", \"name\": \"x\"\x7d".toList

theorem find?_wholeKey_name :
    find? mixedQuotes ⟨[], "name"⟩ = some ⟨⟨37, 48⟩, ⟨46, 47⟩⟩ ∧
      ∃ opening closing rest, ∃ s ∈ (Outline.scan mixedQuotes).literals, isQuote opening = true ∧
        isQuote closing = true ∧ mixedQuotes.drop 37 = opening :: ("name".toList ++ closing :: rest) ∧ s.start = 37 ∧
        (∀ t ∈ (Outline.scan mixedQuotes).literals, t.contains 37 = true → t = s) ∧
        (keySpan ⟨[], "name"⟩ ⟨⟨37, 48⟩, ⟨46, 47⟩⟩).stop ≤ 46 ∧
        (s = keySpan ⟨[], "name"⟩ ⟨⟨37, 48⟩, ⟨46, 47⟩⟩ ↔
          Body (endsString opening) "name".toList ∧ closing = opening ∨
            Body (endsString opening) ("name".toList ++ [closing]) ∧ rest.head? = some '\n') := by
  have hfound : find? mixedQuotes ⟨[], "name"⟩ = some ⟨⟨37, 48⟩, ⟨46, 47⟩⟩ := by decide +kernel
  exact ⟨hfound, find?_wholeKey hfound⟩

/-- **A quote of the other kind ends a key**, so a key and a value are found in the middle of one string. -/
theorem find?_mixedQuotes :
    ∃ found, find? mixedQuotes ⟨[], "version"⟩ = some found ∧
      found.value.slice mixedQuotes = ['1', '.', '0'] ∧
      keySpan ⟨[], "version"⟩ found ∉ (Outline.scan mixedQuotes).literals ∧
      ∃ s ∈ (Outline.scan mixedQuotes).literals, s.start = found.full.start ∧ s.contains found.value.start = true := by
  refine ⟨⟨⟨1, 15⟩, ⟨12, 15⟩⟩, ?_⟩
  decide +kernel

end ManifestBump.Json

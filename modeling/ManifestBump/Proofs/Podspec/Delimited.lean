import ManifestBump.Proofs.Podspec.Edit
import ManifestBump.Proofs.Text.Body

/-! Assigned values and the strings they stand in.

A value stands between quotes, and ends at the first quote of either kind. The string that the quote in front of it
opens ends at a quote of the same kind that no backslash hides (`Quoted`); so does a string for the search for comments
(`commentBegins_string`). A value is the whole string exactly if there is no quote in it (`find?_delimited`). -/
namespace ManifestBump.Podspec
open Text

/-! ### Strings -/

/-- A string in a text, up to the quote that ends it. -/
structure Quoted (text front : List Char) (quote : Char) (body back : List Char) : Prop where
  text_eq : text = front ++ quote :: (body ++ quote :: back)
  isQuote : isQuote quote = true
  body : Body (· == quote) body

theorem Quoted.unique {text front body body' back back' : List Char} {quote : Char}
    (h : Quoted text front quote body back) (h' : Quoted text front quote body' back') : body = body' := by
  have hslash : ('\\' == quote) = false := by
    rcases isQuote_iff.mp h.isQuote with rfl | rfl <;> decide
  have htail := List.append_cancel_left (h.text_eq.symm.trans h'.text_eq)
  exact (h.body.unique hslash h'.body (beq_self_eq_true quote) (beq_self_eq_true quote) (List.cons.inj htail).2).1

/-- **Comments are looked for behind strings**, and a string ends there at its own quote only. -/
theorem commentBegins_string {quote : Char} {body : List Char} (h : Body (· == quote) body) (hslash : quote ≠ '\\')
    (rest : List Char) : commentBegins (some quote) (body ++ quote :: rest) = commentBegins none rest := by
  induction h with
  | nil =>
    rw [List.nil_append, commentBegins]
    · rw [if_pos rfl]
    · exact fun heq _ => hslash heq
    · exact fun _ _ heq _ => hslash heq
  | plain hend hshow _ ih =>
    rw [List.cons_append, commentBegins]
    · rw [if_neg (by simpa using hend), ih]
    · exact fun heq _ => hshow heq
    · exact fun _ _ heq _ => hshow heq
  | hidden c _ ih => exact ih

/-! ### Values -/

theorem isQuote_of_isInner {c : Char} (h : isInner c = true) : isQuote c = false := by
  by_contra hquote
  rw [isInner_of_isQuote (by simpa using hquote)] at h
  cases h

/-- What is found stands between two quotes. -/
theorem exists_quotes_of_find? {block : String} {text : List Char} {path : KeyPath} {found : Occurrence}
    (h : find? block text path = some found) :
    ∃ front opening value closing back, text = front ++ opening :: (value ++ closing :: back) ∧
      found.value = .behind (front ++ [opening]) value ∧ isQuote opening = true ∧ isQuote closing = true ∧
      ∀ c ∈ value, isInner c = true := by
  rw [find?, findTarget?_eq, firstAnswer_eq_some_iff] at h
  obtain ⟨n, -, hle, hn, -⟩ := h
  obtain ⟨k, slot, hcandidate, -, rfl⟩ := targetAt_eq_some_iff.mp hn
  obtain ⟨slot, hslot, rfl, hlen, -⟩ := candidate?_eq_some hcandidate
  obtain ⟨before, behind, opening, value, closing, back, -, -, hopening, hvalue, hclosing, htext, rfl⟩ :=
    assignment?_eq_some_iff.mp hslot
  set front := text.take n ++ (text.drop n).take k ++ ((leftHandSide block path).toList ++ before ++ '=' :: behind)
    with hfront
  refine ⟨front, opening, value, closing, back, ?_, ?_, hopening, hclosing, hvalue⟩
  · have hrest : (text.drop n).drop k = (leftHandSide block path).toList ++ before ++ '=' :: behind ++
        opening :: (value ++ closing :: back) := htext
    rw [hfront, List.append_assoc, ← hrest, List.append_assoc, List.take_append_drop, List.take_append_drop]
  · have hlen : ((text.drop n).take k).length = k := hlen
    have hn : (text.take n).length = n := List.length_take_of_le hle
    simp only [Slot.occurrence, Slot.behind, Span.behind, hfront, List.length_append, hn, Nat.add_assoc]
    rfl

/-- **A value ends at the first quote**, whatever kind of quote is in front of it. So it is the whole string that this
quote opens, with the same quote on both sides, exactly if the string holds no quotes. -/
theorem find?_delimited {block : String} {text : List Char} {path : KeyPath} {found : Occurrence}
    (h : find? block text path = some found) :
    ∃ front opening value closing back, text = front ++ opening :: (value ++ closing :: back) ∧
      found.value = .behind (front ++ [opening]) value ∧ isQuote opening = true ∧ isQuote closing = true ∧
      ∀ body rest, Quoted text front opening body rest → value = body.takeWhile isInner ∧
        (value = body ∧ closing = opening ↔ ∀ c ∈ body, isQuote c = false) := by
  obtain ⟨front, opening, value, closing, back, htext, hplace, hopening, hclosing, hvalue⟩ := exists_quotes_of_find? h
  refine ⟨front, opening, value, closing, back, htext, hplace, hopening, hclosing, fun body rest hquoted => ⟨?_, ?_⟩⟩
  all_goals
    have htail : value ++ closing :: back = body ++ opening :: rest :=
      (List.cons.inj (List.append_cancel_left (htext.symm.trans hquoted.text_eq))).2
  · have hrun := congrArg (List.takeWhile isInner) htail
    rwa [takeWhile_append hvalue (stops_cons_iff.mpr (isInner_of_isQuote hclosing)),
      takeWhile_append_cons (isInner_of_isQuote hopening)] at hrun
  · constructor
    · rintro ⟨rfl, -⟩
      exact fun c hc => isQuote_of_isInner (hvalue c hc)
    · intro hbody
      have hstops : ∀ {quote : Char} {text : List Char}, isQuote quote = true →
          Stops (fun c => !isQuote c) (quote :: text) := fun h => stops_cons_iff.mpr (by simp [h])
      obtain ⟨rfl, hrest⟩ := cut_unique (fun c hc => by simp [isQuote_of_isInner (hvalue c hc)]) (hstops hclosing)
        (fun c hc => by simp [hbody c hc]) (hstops hopening) htail
      exact ⟨rfl, (List.cons.inj hrest).1⟩

/-- A version and a summary; the summary holds an apostrophe. -/
def apostrophe : List Char :=
  "Pod::Spec.new do |s|\n  s.version = '1.0'\n  s.summary = \"It's\"\nend\n".toList

theorem find?_delimited_version :
    find? "s" apostrophe ⟨[], "version"⟩ = some ⟨⟨22, 40⟩, ⟨36, 39⟩⟩ ∧
      ∃ front opening value closing back, apostrophe = front ++ opening :: (value ++ closing :: back) ∧
        (⟨36, 39⟩ : Span) = .behind (front ++ [opening]) value ∧ isQuote opening = true ∧ isQuote closing = true ∧
        ∀ body rest, Quoted apostrophe front opening body rest → value = body.takeWhile isInner ∧
          (value = body ∧ closing = opening ↔ ∀ c ∈ body, isQuote c = false) := by
  have hfound : find? "s" apostrophe ⟨[], "version"⟩ = some ⟨⟨22, 40⟩, ⟨36, 39⟩⟩ := by decide +kernel
  exact ⟨hfound, find?_delimited hfound⟩

/-- **An apostrophe ends a value between double quotes**, so there are different quotes around it. -/
theorem find?_apostrophe :
    discover? apostrophe = some "s" ∧ ∃ found, find? "s" apostrophe ⟨[], "summary"⟩ = some found ∧
      found.value.slice apostrophe = ['I', 't'] ∧ apostrophe[found.value.start - 1]? = some '"' ∧
      apostrophe[found.value.stop]? = some '\'' := by
  refine ⟨by decide +kernel, ⟨⟨42, 59⟩, ⟨56, 58⟩⟩, ?_⟩
  decide +kernel

end ManifestBump.Podspec

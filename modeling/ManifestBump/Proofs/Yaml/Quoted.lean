import ManifestBump.Proofs.Yaml.Edit

/-! A value between quotes exchanged for another one.

The quotes stay where they are, so the key reads whatever stands between them (`leafOf?_replace`). In front of the
opening quote the line has a colon with a blank behind it. A key that holds no such pair ends in front of the quote
(`spelled_in_front_of_quote`), where it opens a block or not whatever the quotes enclose (`parentOf?_quoted`). Hence
the new value is found where the old one was (`find?_quoted`). -/
namespace ManifestBump.Yaml
open Text

theorem inLine_of_isQuote {c : Char} (h : isQuote c = true) : inLine c = true := by
  rcases isQuote_eq_true_iff.mp h with rfl | rfl <;> rfl

theorem isIndent_of_isQuote {c : Char} (h : isQuote c = true) : isIndent c = false := by
  rcases isQuote_eq_true_iff.mp h with rfl | rfl <;> rfl

/-! ### The key of the value -/

/-- What leads to a quoted value ends with a colon, blanks and the quote. -/
theorem leafOf?_replace {key line new : List Char} {indent : Nat} {slot : Slot} {quote : Char}
    (h : leafOf? key line = some (indent, slot)) (hlast : slot.lead.getLast? = some quote)
    (hquote : isQuote quote = true) (hnew : ∀ c ∈ new, isInner quote c = true) :
    ∃ p b q tail, slot.lead = p ++ ':' :: b :: q ++ [quote] ∧ isIndent b = true ∧
      line = slot.lead ++ slot.value ++ quote :: tail ∧
      leafOf? key (slot.lead ++ new ++ quote :: tail) = some (indent, ⟨slot.lead, new, slot.close⟩) := by
  obtain ⟨lead, rest, inner, hfront, hinner, rfl⟩ := leafOf?_eq_some_iff.mp h
  obtain ⟨blanks, text, scalar, rfl, hne, hblanks, hstops, hscalar, rfl⟩ := value?_eq_some_iff.mp hinner
  obtain ⟨rfl, hspelled, hmax⟩ := frontOf?_eq_some_iff.mp hfront
  obtain ⟨p, rfl, -⟩ := hspelled.exists_colon
  obtain ⟨b, q, rfl⟩ := List.exists_cons_of_ne_nil hne
  have hb := hblanks b List.mem_cons_self
  cases scalar?_cases hscalar with
  | bare hplain _ _ _ =>
    -- In front of a value without quotes is a blank.
    have hmem : quote ∈ b :: q := by
      refine List.mem_of_getLast? ?_
      simpa [Slot.behind, List.getLast?_append] using hlast
    have hblank := hblanks _ hmem
    rw [isIndent_of_isQuote hquote] at hblank
    cases hblank
  | @quoted quote' old tail trail hquote' hold htrail =>
    have hlead : ∀ lead : List Char, (lead ++ (b :: q ++ [quote'])).getLast? = some quote' :=
      fun lead => by rw [← List.append_assoc, List.getLast?_concat]
    obtain rfl : quote' = quote := Option.some.inj ((hlead _).symm.trans hlast)
    refine ⟨p, b, q, tail, by simp [Slot.behind], hb, by simp [Slot.behind], ?_⟩
    have hread : scalar? (quote' :: (new ++ quote' :: tail)) = some ⟨[quote'], new, quote' :: trail⟩ := by
      rw [scalar?_quote hquote]
      exact quoted?_eq_some_iff.mpr ⟨new, tail, trail, rfl, hnew, htrail, rfl⟩
    have hvalue : value? (b :: q ++ quote' :: (new ++ quote' :: tail)) =
        some ⟨b :: q ++ [quote'], new, quote' :: trail⟩ :=
      value?_eq_some_iff.mpr ⟨b :: q, _, _, rfl, hne, hblanks, stops_cons_iff.mpr (isIndent_of_isQuote hquote),
        hread, rfl⟩
    refine leafOf?_eq_some_iff.mpr ⟨p ++ [':'], b :: q ++ quote' :: (new ++ quote' :: tail), _, ?_, hvalue, ?_⟩
    · exact frontOf?_eq_some_iff.mpr ⟨by simp [Slot.behind], hspelled, hmax⟩
    · simp [Slot.behind]

/-! ### Keys that open blocks -/

/-- A colon and a blank in front of a quote, on the way to the colon of a key, belong to the key. -/
theorem Spelled.pair_infix {key lead p rest : List Char} {b quote : Char} {indent : Nat} (h : Spelled key lead indent)
    (hb : isIndent b = true) (hquote : isQuote quote = true) (hmem : quote ∈ rest)
    (heq : lead = p ++ ':' :: b :: rest) : [':', b] <:+: key := by
  obtain ⟨hspaces, hopening, hclosing, hblanks⟩ := h
  rename_i spaces opening closing blanks
  have hcolon : isEdge ':' = false := by decide
  have hfront : ∀ c ∈ spaces ++ opening, isEdge c = true :=
    List.forall_mem_append.mpr ⟨fun c hc => isEdge_of_isIndent (hspaces c hc), isEdge_of_optionalQuote hopening⟩
  have hback : ∀ c ∈ closing ++ blanks, isEdge c = true :=
    List.forall_mem_append.mpr ⟨isEdge_of_optionalQuote hclosing, fun c hc => isEdge_of_isIndent (hblanks c hc)⟩
  have hline : p ++ ':' :: (b :: rest) = [] ++ (spaces ++ opening) ++ (key ++ (closing ++ blanks) ++ [':']) := by
    rw [← heq]
    simp
  rcases run_cases hfront hcolon hline with ⟨x, -, htail⟩ | ⟨x, hnil, -⟩
  swap
  · simp at hnil
  rcases run_cases hback hcolon htail.symm with ⟨x', -, hlast⟩ | ⟨x', rfl, hrest⟩
  · -- The colon is not the one behind the key, where the line ends.
    have hlen := congrArg List.length hlast
    simp only [List.length_append, List.length_cons, List.length_nil] at hlen
    omega
  · cases x' with
    | cons d x' =>
      obtain ⟨rfl, -⟩ := List.cons.inj hrest
      exact ⟨x, x', by simp⟩
    | nil =>
      -- Behind the key there is one quote at most, and no blank in front of it.
      rcases hclosing with rfl | ⟨c, hc, rfl⟩
      · have hmem' : quote ∈ [] ++ ([] ++ blanks) ++ [':'] := by
          rw [← hrest]
          exact List.mem_cons_of_mem b hmem
        have hquote' := isIndent_of_isQuote hquote
        simp only [List.nil_append, List.mem_append, List.mem_singleton] at hmem'
        rcases hmem' with hmem' | rfl
        · rw [hblanks _ hmem'] at hquote'
          cases hquote'
        · exact absurd hquote (by decide)
      · obtain ⟨rfl, -⟩ := List.cons.inj hrest
        rw [isIndent_of_isQuote hc] at hb
        cases hb

/-- A key in which no blank stands behind a colon ends in front of a quote that comes behind such a pair. -/
theorem spelled_in_front_of_quote {key lead rest p q tail : List Char} {b quote : Char} {indent : Nat}
    (h : Spelled key lead indent) (hb : isIndent b = true) (hquote : isQuote quote = true)
    (hkey : ¬[':', b] <:+: key) (heq : lead ++ rest = p ++ ':' :: b :: q ++ quote :: tail) :
    ∃ y, p ++ ':' :: b :: q = lead ++ y ∧ rest = y ++ quote :: tail := by
  rcases List.append_eq_append_iff.mp heq with ⟨y, hy, hrest⟩ | ⟨y, hlead, hrest⟩
  · exact ⟨y, hy, hrest⟩
  · cases y with
    | nil => exact ⟨[], by simpa using hlead.symm, by simpa using hrest.symm⟩
    | cons c y =>
      obtain ⟨rfl, -⟩ := List.cons.inj hrest
      rw [List.append_assoc, List.cons_append, List.cons_append] at hlead
      exact absurd (h.pair_infix hb hquote (by simp) hlead) hkey

/-- The new value opens no block that the old one did not open. -/
theorem parentOf?_quoted {key p q w old new : List Char} {b quote : Char} {indent : Nat} (hb : isIndent b = true)
    (hquote : isQuote quote = true) (hkey : ¬[':', b] <:+: key) (hlead : '\n' ∉ p ++ ':' :: b :: q)
    (hold : ∀ c ∈ old, inLine c = true) (hnew : ∀ c ∈ new, inLine c = true)
    (h : parentOf? key (p ++ ':' :: b :: q ++ [quote] ++ new ++ w) = some indent) :
    parentOf? key (p ++ ':' :: b :: q ++ [quote] ++ old ++ w) = some indent := by
  have hvisible : ∀ value : List Char, (∀ c ∈ value, inLine c = true) → Visible (quote :: value) := fun value hvalue =>
    ⟨by simp, stops_cons_iff.mpr (isIndent_of_isQuote hquote),
      List.forall_mem_cons.mpr ⟨inLine_of_isQuote hquote, hvalue⟩⟩
  have hcut : ∀ value, p ++ ':' :: b :: q ++ [quote] ++ value ++ w = p ++ ':' :: b :: q ++ quote :: (value ++ w) := by
    simp
  obtain ⟨lead, rest, hfront, hopens⟩ := parentOf?_eq_some_iff.mp h
  obtain ⟨heq, hspelled, hmax⟩ := frontOf?_eq_some_iff.mp hfront
  rw [hcut] at heq
  obtain ⟨y, hy, rfl⟩ := spelled_in_front_of_quote hspelled hb hquote hkey heq.symm
  have hfeed : '\n' ∉ y := fun hmem => hlead (by rw [hy]; exact List.mem_append_right _ hmem)
  refine parentOf?_eq_some_iff.mpr ⟨lead, y ++ quote :: (old ++ w), ?_, ?_⟩
  · exact frontOf?_eq_some_iff.mpr ⟨by rw [hcut, hy, List.append_assoc], hspelled, hmax⟩
  · have hsame := opensBlock_visible (w := w) hfeed (hvisible new hnew)
    rw [← opensBlock_visible hfeed (hvisible old hold)] at hsame
    simpa [hopens] using hsame.symm

/-- **Where a value between quotes was found, the new one is found** once it stands there, by any path whose keys are in
one line and whose parents hold no colon with a blank behind it. -/
theorem find?_quoted {e : Edit} {path : KeyPath} (hfeeds : ∀ key ∈ path.segments, '\n' ∉ key.toList)
    (hcolons : ∀ key ∈ path.parents, ∀ b, isIndent b = true → ¬[':', b] <:+: key.toList)
    {quote : Char} (hquote : isQuote quote = true) (hfront : e.front.getLast? = some quote)
    (hnew : ∀ c ∈ e.new, isInner quote c = true) {found : Occurrence} (h : find? e.before path = some found)
    (hvalue : found.value = e.oldSpan) : ∃ found', find? e.after path = some found' ∧ found'.value = e.newSpan := by
  obtain ⟨hleaf, -⟩ := KeyPath.forall_toList (P := fun name => '\n' ∉ name) hfeeds
  have hinner : ∀ c ∈ e.new, inLine c = true := fun c hc => (Bool.and_eq_true_iff.mp (hnew c hc)).2
  have hfeed : '\n' ∉ e.new := fun hmem => absurd (hinner _ hmem) (by decide)
  refine find?_carried hfeeds hfeed (fun line indent slot hslot hold hsuffix => ?_) h hvalue
  obtain ⟨before, hbefore⟩ := hsuffix
  obtain ⟨hcolon, hline, hin⟩ := lead_of_leafOf? hleaf hslot
  have hlast : slot.lead.getLast? = some quote := by
    rwa [← hbefore, List.getLast?_append_of_ne_nil _ (List.ne_nil_of_mem hcolon)] at hfront
  obtain ⟨p, b, q, tail, hlead, hb, rfl, hreads⟩ := leafOf?_replace hslot hlast hquote hnew
  obtain ⟨lead, old, close⟩ := slot
  obtain rfl : old = e.old := hold
  obtain rfl : lead = p ++ ':' :: b :: q ++ [quote] := hlead
  refine ⟨quote :: tail, rfl, hcolon, by simp, ⟨indent, close, hslot, hreads⟩, fun key hkey indent hopens => ?_⟩
  obtain ⟨name, hname, rfl⟩ := List.mem_map.mp hkey
  exact parentOf?_quoted hb hquote (hcolons name hname b hb) (fun hmem => hline (List.mem_append_left _ hmem)) hin
    hinner hopens

end ManifestBump.Yaml

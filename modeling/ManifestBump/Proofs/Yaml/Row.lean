import ManifestBump.Proofs.Yaml.Tree

/-! What is read of the lines of a mapping.

Of a remark nothing is read (`frontOf?_remark`). Of the line of a key the key is read, at its own indentation
and no other way (`frontOf?_lead`), and behind its colon a scalar as it is written (`value?_scalar`) or the
opening of a block (`opensBlock_trail`). -/
namespace ManifestBump.Yaml
open Text

/-! ### Characters of keys -/

section Name
variable {c : Char} (h : isKeyChar c = true)
include h

theorem isBlank_of_isKeyChar : isBlank c = false := by
  simp only [isKeyChar, Bool.and_eq_true, Bool.not_eq_true'] at h
  exact h.1.1.1

theorem isEdge_of_isKeyChar : isEdge c = false := by
  have hblank := isBlank_of_isKeyChar h
  simp only [isKeyChar, Bool.and_eq_true, Bool.not_eq_true'] at h
  have hindent : isIndent c = false := by
    rw [Bool.eq_false_iff]
    intro hindent
    simp only [isIndent, Bool.or_eq_true, beq_iff_eq] at hindent
    rcases hindent with rfl | rfl <;> exact absurd hblank (by decide)
  rw [isEdge, hindent, h.1.1.2, Bool.or_self]

theorem ne_of_isKeyChar {d : Char} (hd : isKeyChar d = false) : c ≠ d := by
  intro heq
  subst heq
  rw [h] at hd
  cases hd

end Name

theorem isQuote_char (quote : Quote) : isQuote quote.char = true := by cases quote <;> decide

/-- Both edges of a key are the same quote, or nothing. -/
theorem Key.optionalQuote_edge (key : Key) : OptionalQuote key.edge := by
  unfold Key.edge
  cases key.quote with
  | none => exact .inl rfl
  | some quote => exact .inr ⟨quote.char, isQuote_char quote, rfl⟩

/-! ### What is read of the end of a line -/

theorem lineEnd?_ending (ending : Ending) : ∃ more, lineEnd? ending.text = some more := by
  cases ending <;> exact ⟨_, rfl⟩

theorem Ending.stops {p : Char → Bool} (hfeed : p '\n' = false) (hreturn : p '\r' = false) (ending : Ending) :
    Stops p ending.text := by
  cases ending with
  | feed => exact stops_cons_iff.mpr hfeed
  | returnFeed => exact stops_cons_iff.mpr hreturn
  | nothing => exact stops_nil

theorem Remark.stops_mark {p : Char → Bool} (hfeed : p '\n' = false) (hreturn : p '\r' = false)
    (hmark : p '#' = false) (remark : Remark) : Stops p (remark.mark ++ remark.ending.text) := by
  unfold Remark.mark
  cases remark.comment with
  | none => exact remark.ending.stops hfeed hreturn
  | some text => exact stops_cons_iff.mpr hmark

/-- Up to what ends it a remark is on its line. -/
theorem Remark.inLine (remark : Remark) : ∀ c ∈ remark.blanks.text ++ remark.mark, inLine c = true := by
  intro c hc
  rcases List.mem_append.mp hc with hc | hc
  · have := remark.blanks.chars c hc
    simp only [isIndent, Bool.or_eq_true, beq_iff_eq] at this
    rcases this with rfl | rfl <;> decide
  · unfold Remark.mark at hc
    cases hcomment : remark.comment with
    | none =>
      rw [hcomment] at hc
      cases hc
    | some text =>
      rw [hcomment] at hc
      rcases List.mem_cons.mp hc with rfl | hc
      · decide
      · exact remark.chars text hcomment c hc

/-- A trail is read to its end. -/
theorem trail?_trail (trail : Trail) : ∃ more, trail? trail.text = some more := by
  have hstops : Stops isIndent (trail.mark ++ trail.ending.text) :=
    trail.stops_mark (by decide) (by decide) (by decide)
  obtain ⟨more, hmore⟩ := lineEnd?_ending trail.ending
  have hends : Stops Yaml.inLine trail.ending.text := trail.ending.stops (by decide) (by decide)
  simp only [trail?, Remark.text, takeWhile_append trail.blanks.chars hstops,
    dropWhile_append trail.blanks.chars hstops]
  cases hcomment : trail.comment with
  | none =>
    simp only [Remark.mark, hcomment, List.nil_append]
    split
    · rename_i rest heq
      rw [heq] at hends hmore
      exact absurd hmore (by simp [lineEnd?])
    · exact ⟨_, by rw [hmore]; rfl⟩
  | some text =>
    have hblanks : trail.blanks.text.isEmpty = false := by
      simpa using trail.apart (by simp [hcomment])
    have htext := trail.inLine
    have hrun : ∀ c ∈ '#' :: text, Yaml.inLine c = true := by
      intro c hc
      exact htext c (List.mem_append_right _ (by rwa [Remark.mark, hcomment]))
    simp only [Remark.mark, hcomment, List.cons_append, hblanks, Bool.false_eq_true, if_false]
    rw [← List.cons_append, dropWhile_append hrun hends, hmore]
    exact ⟨_, rfl⟩

/-! ### What is read behind a colon -/

/-- No end of a text without quotes begins a trail, whatever follows. -/
theorem Plain.trail?_eq_none (value : Plain) {tail : List Char} (hne : tail ≠ []) (htail : tail <:+ value.rest)
    (more : List Char) : trail? (tail ++ more) = none := by
  obtain ⟨front, hrest⟩ := htail
  -- Behind its blanks, the end goes on with a character of the value.
  obtain ⟨blanks, core, rfl, hblanks, hcore⟩ := exists_cut isIndent tail
  cases core with
  | nil =>
    rw [List.append_nil] at hne hrest
    have hlast : value.rest.getLast? = some (blanks.getLast hne) := by
      rw [← hrest, List.getLast?_append_of_ne_nil _ hne, List.getLast?_eq_some_getLast hne]
    have hindent := value.ends _ hlast
    rw [hblanks _ (List.getLast_mem hne)] at hindent
    cases hindent
  | cons c core =>
    have hline := (value.chars c (by simp [← hrest])).1
    have hindent := stops_cons_iff.mp hcore
    rcases List.eq_nil_or_concat blanks with rfl | ⟨init, last, rfl⟩
    · by_cases hc : c = '#'
      · subst hc
        simp [trail?, isIndent]
      · exact trail?_of_solid (by simp [isSolid, hindent, hc, hline]) _
    · have hc : c ≠ '#' := by
        intro heq
        subst heq
        have hlast := value.unmarked (front ++ init) last core (by simp [← hrest])
        rw [hblanks last (by simp)] at hlast
        cases hlast
      have hstops : Stops isIndent (c :: (core ++ more)) := stops_cons_iff.mpr hindent
      rw [List.append_assoc, List.cons_append]
      simp only [trail?, takeWhile_append hblanks hstops, dropWhile_append hblanks hstops]
      simp [hc, lineEnd?_of_inLine hline]

/-- A text that stands without quotes is read up to where a trail begins. -/
theorem scalar?_plain (value : Plain) {tail trail : List Char} (htrail : trail? tail = some trail) :
    scalar? (value.first :: value.rest ++ tail) = some ⟨[], value.first :: value.rest, trail⟩ := by
  obtain ⟨hblank, hquote, hhash⟩ := value.visible
  have hends : ∀ more, more ≠ [] → more <:+ value.rest → trail? (more ++ tail) = none :=
    fun more hne hmore => value.trail?_eq_none hne hmore tail
  rw [List.cons_append, scalar?_bare hquote hblank hhash, bareRest?_append_trail value.chars hends htrail]
  rfl

/-- A scalar is read as it is written. -/
theorem scalar?_literal (literal : Literal) (trail : Trail) :
    ∃ close, scalar? (literal.opening ++ literal.value ++ literal.closing ++ trail.text) =
      some ⟨literal.opening, literal.value, close⟩ := by
  obtain ⟨more, hmore⟩ := trail?_trail trail
  cases literal with
  | quoted quote value hchars =>
    have hquote := isQuote_char quote
    refine ⟨quote.char :: more, ?_⟩
    show scalar? (quote.char :: (value ++ [quote.char] ++ trail.text)) = _
    rw [scalar?_quote hquote, quoted?_eq_some_iff]
    refine ⟨value, trail.text, more, by simp, fun c hc => ?_, hmore, rfl⟩
    obtain ⟨hline, hplain⟩ := hchars c hc
    have hne : c ≠ quote.char := by
      intro heq
      subst heq
      rw [hquote] at hplain
      cases hplain
    simp [isInner, hne, hline]
  | plain value =>
    refine ⟨more, ?_⟩
    show scalar? (value.first :: value.rest ++ [] ++ trail.text) = _
    rw [List.append_nil]
    exact scalar?_plain value hmore

/-- **The value of a key is the scalar behind it.** -/
theorem value?_scalar (gap : Blanks) (apart : gap.text ≠ []) (literal : Literal) (trail : Trail) :
    ∃ close, value? (Node.scalar gap apart literal trail).rest =
      some ⟨gap.text ++ literal.opening, literal.value, close⟩ := by
  obtain ⟨close, hclose⟩ := scalar?_literal literal trail
  refine ⟨close, value?_eq_some_iff.mpr ⟨gap.text, _, _, rfl, apart, gap.chars, ?_, hclose, rfl⟩⟩
  cases literal with
  | quoted quote value hchars =>
    refine stops_cons_iff.mpr ?_
    cases quote <;> decide
  | plain value =>
    refine stops_cons_iff.mpr ?_
    rw [Bool.eq_false_iff]
    intro hindent
    have := isBlank_of_isIndent hindent
    rw [value.visible.1] at this
    cases this

/-- A key with a block has no value. -/
theorem value?_trail (trail : Trail) : value? trail.text = none := by
  have hstops : Stops isIndent (trail.mark ++ trail.ending.text) :=
    trail.stops_mark (by decide) (by decide) (by decide)
  rw [value?, Remark.text, takeWhile_append trail.blanks.chars hstops, dropWhile_append trail.blanks.chars hstops]
  split
  · rfl
  · have hnone : scalar? (trail.mark ++ trail.ending.text) = none := by
      unfold Remark.mark
      cases trail.comment with
      | none => cases trail.ending <;> rfl
      | some text => rfl
    rw [hnone, Option.map_none]

/-- A block opens behind a trail. -/
theorem opensBlock_trail (trail : Trail) : opensBlock trail.text = true := by
  have hline := trail.inLine
  cases hblanks : trail.blanks.text with
  | nil =>
    have hcomment : trail.comment = none := by
      by_contra hne
      exact trail.apart hne hblanks
    rw [Remark.text, hblanks, Remark.mark, hcomment]
    cases trail.ending <;> decide
  | cons c blanks =>
    have hc := trail.blanks.chars c (by simp [hblanks])
    have hends : Stops inLine trail.ending.text := trail.ending.stops (by decide) (by decide)
    obtain ⟨more, hmore⟩ := lineEnd?_ending trail.ending
    have hrun : ∀ d ∈ c :: (blanks ++ trail.mark), inLine d = true := by
      rwa [hblanks, List.cons_append] at hline
    have htext : trail.text = c :: (blanks ++ trail.mark ++ trail.ending.text) := by simp [Remark.text, hblanks]
    rw [htext, opensBlock, if_pos hc, ← List.cons_append, dropWhile_append hrun hends, hmore]
    rfl

/-! ### Keys at the front of lines -/

/-- The name in a spelling is what is left of it without blanks and quotes. -/
theorem Spelled.exists_front {name lead : List Char} {indent : Nat} (hname : ∀ c ∈ name, isKeyChar c = true)
    (h : Spelled name lead indent) : ∃ front, lead = front ++ [':'] ∧
      (∀ c ∈ front, isEdge c = true ∨ isKeyChar c = true) ∧ front.filter (fun c => !isEdge c) = name := by
  obtain ⟨hspaces, hopening, hclosing, hblanks⟩ := h
  rename_i spaces opening closing blanks
  have hspaces' := fun c hc => isEdge_of_isIndent (hspaces c hc)
  have hopening' := isEdge_of_optionalQuote hopening
  have hclosing' := isEdge_of_optionalQuote hclosing
  have hblanks' := fun c hc => isEdge_of_isIndent (hblanks c hc)
  refine ⟨spaces ++ opening ++ name ++ closing ++ blanks, rfl, ?_, ?_⟩
  · intro c hc
    simp only [List.mem_append] at hc
    rcases hc with (((hc | hc) | hc) | hc) | hc
    · exact .inl (hspaces' c hc)
    · exact .inl (hopening' c hc)
    · exact .inr (hname c hc)
    · exact .inl (hclosing' c hc)
    · exact .inl (hblanks' c hc)
  · have hnone : ∀ edge : List Char, (∀ c ∈ edge, isEdge c = true) → edge.filter (fun c => !isEdge c) = [] := by
      intro edge hedge
      rw [List.filter_eq_nil_iff]
      intro c hc
      simp [hedge c hc]
    have hall : name.filter (fun c => !isEdge c) = name := by
      rw [List.filter_eq_self]
      intro c hc
      simp [isEdge_of_isKeyChar (hname c hc)]
    simp only [List.filter_append, hnone _ hspaces', hnone _ hopening', hnone _ hclosing', hnone _ hblanks', hall,
      List.nil_append, List.append_nil]

/-- A line spells one key only. -/
theorem Spelled.name_unique {name name' lead lead' rest rest' : List Char} {indent indent' : Nat}
    (hname : ∀ c ∈ name, isKeyChar c = true) (hname' : ∀ c ∈ name', isKeyChar c = true)
    (h : Spelled name lead indent) (h' : Spelled name' lead' indent') (heq : lead ++ rest = lead' ++ rest') :
    name = name' := by
  have hcolon : ∀ c, isEdge c = true ∨ isKeyChar c = true → (c != ':') = true := by
    rintro c (hc | hc)
    · rw [bne_iff_ne]
      intro heq
      subst heq
      exact absurd hc (by decide)
    · rw [bne_iff_ne]
      exact ne_of_isKeyChar hc (by decide)
  obtain ⟨front, rfl, hfront, hfilter⟩ := h.exists_front hname
  obtain ⟨front', rfl, hfront', hfilter'⟩ := h'.exists_front hname'
  rw [List.append_assoc, List.append_assoc] at heq
  have hstops : ∀ rest, Stops (· != ':') ([':'] ++ rest) := fun rest => stops_cons_iff.mpr (by decide)
  have hcut := cut_unique (fun c hc => hcolon c (hfront c hc)) (hstops rest)
    (fun c hc => hcolon c (hfront' c hc)) (hstops rest') heq
  rw [← hfilter, ← hfilter', hcut.1]

/-- A key begins with a character that is seen. -/
theorem Key.exists_first (key : Key) (indent : Nat) (rest : List Char) :
    ∃ c more, key.lead indent ++ rest = List.replicate indent ' ' ++ c :: more ∧ isBlank c = false ∧ c ≠ '#' := by
  obtain ⟨text, hne, hchars, quote⟩ := key
  cases quote with
  | none =>
    obtain ⟨c, text, rfl⟩ := List.exists_cons_of_ne_nil hne
    have hc := hchars c List.mem_cons_self
    refine ⟨c, text ++ ':' :: rest, by simp [Key.lead, Key.edge], isBlank_of_isKeyChar hc, ?_⟩
    exact ne_of_isKeyChar hc (by decide)
  | some quote =>
    refine ⟨quote.char, text ++ quote.char :: ':' :: rest, by simp [Key.lead, Key.edge], ?_, ?_⟩
    · cases quote <;> decide
    · cases quote <;> decide

theorem isIndent_of_not_isBlank {c : Char} (h : isBlank c = false) : isIndent c = false := by
  rw [Bool.eq_false_iff]
  intro hindent
  rw [isBlank_of_isIndent hindent] at h
  cases h

theorem isIndent_replicate (indent : Nat) : ∀ c ∈ List.replicate indent ' ', isIndent c = true := by
  intro c hc
  rw [List.eq_of_mem_replicate hc]
  decide

theorem Key.spelled (key : Key) (indent : Nat) : Spelled key.text (key.lead indent) indent := by
  have hspelled : Spelled key.text (List.replicate indent ' ' ++ key.edge ++ key.text ++ key.edge ++ [] ++ [':'])
      (List.replicate indent ' ').length :=
    ⟨isIndent_replicate indent, key.optionalQuote_edge, key.optionalQuote_edge, List.forall_mem_nil _⟩
  rwa [List.append_nil, List.length_replicate] at hspelled

/-- **On the line of a key, this key is read at its indentation**, and no other. -/
theorem frontOf?_lead (key : Key) (indent : Nat) (rest : List Char) {name : List Char}
    (hname : ∀ c ∈ name, isKeyChar c = true) :
    frontOf? name (key.lead indent ++ rest) =
      if key.text = name then some (indent, key.lead indent, rest) else none := by
  have hspelled := key.spelled indent
  split
  · rename_i heq
    subst heq
    refine frontOf?_eq_some_iff.mpr ⟨rfl, hspelled, fun other hother => ?_⟩
    obtain ⟨c, more, hfirst, hblank, -⟩ := key.exists_first indent []
    rw [List.append_nil] at hfirst
    rw [hfirst] at hother
    generalize hlead : List.replicate indent ' ' ++ c :: more = lead at hother
    obtain ⟨hspaces, -, -, -⟩ := hother
    have hrun := congrArg (List.takeWhile isIndent) hlead
    rw [takeWhile_append (isIndent_replicate indent) (stops_cons_iff.mpr (isIndent_of_not_isBlank hblank))] at hrun
    have hlen := congrArg List.length hrun
    simp only [List.append_assoc, List.takeWhile_append_of_pos hspaces, List.length_append,
      List.length_replicate] at hlen
    omega
  · rename_i hne
    refine frontOf?_eq_none_iff.mpr fun lead rest' indent' hspelled' heq => hne ?_
    exact hspelled.name_unique key.chars hname hspelled' heq

/-- On the line of a remark no key is read. -/
theorem frontOf?_remark (remark : Remark) {name : List Char} (hname : ∀ c ∈ name, isKeyChar c = true) :
    frontOf? name remark.text = none := by
  refine frontOf?_eq_none_iff.mpr fun lead rest indent hspelled heq => ?_
  obtain ⟨front, rfl, hfront, -⟩ := hspelled.exists_front hname
  have hno : ∀ d ∈ front ++ [':'], isIndent d = true ∨ isQuote d = true ∨ isKeyChar d = true ∨ d = ':' := by
    intro d hd
    rcases List.mem_append.mp hd with hd | hd
    · rcases hfront d hd with hedge | hkey
      · rcases Bool.or_eq_true_iff.mp hedge with hedge | hedge
        · exact .inl hedge
        · exact .inr (.inl hedge)
      · exact .inr (.inr (.inl hkey))
    · exact .inr (.inr (.inr (List.mem_singleton.mp hd)))
  have hstops : Stops (fun d => isIndent d || isQuote d || isKeyChar d || d == ':')
      (remark.mark ++ remark.ending.text) := remark.stops_mark (by decide) (by decide) (by decide)
  rcases List.append_eq_append_iff.mp heq with ⟨tail, hlead, htail⟩ | ⟨tail, hblanks, -⟩
  · cases tail with
    | nil =>
      rw [List.append_nil] at hlead
      exact absurd (remark.blanks.chars ':' (by simp [← hlead])) (by decide)
    | cons d tail =>
      rw [htail, List.cons_append] at hstops
      simp only [stops_cons_iff, Bool.or_eq_false_iff, beq_eq_false_iff_ne] at hstops
      obtain ⟨⟨⟨hindent, hquote⟩, hkey⟩, hcolon⟩ := hstops
      rcases hno d (by simp [hlead]) with hd | hd | hd | hd
      · rw [hindent] at hd
        cases hd
      · rw [hquote] at hd
        cases hd
      · rw [hkey] at hd
        cases hd
      · exact hcolon hd
  · exact absurd (remark.blanks.chars ':' (by simp [hblanks])) (by decide)

/-! ### Indentation and content -/

theorem indentOf_row (indent : Nat) (key : Key) (node : Node) : Block.indentOf (node.row indent key) = indent := by
  obtain ⟨c, more, hfirst, hblank, -⟩ := key.exists_first indent node.rest
  rw [Node.row, hfirst, Block.indentOf, takeWhile_append (isIndent_replicate indent)
    (stops_cons_iff.mpr (isIndent_of_not_isBlank hblank)), List.length_replicate]

theorem isContent_row (indent : Nat) (key : Key) (node : Node) : Block.isContent (node.row indent key) = true := by
  obtain ⟨c, more, hfirst, hblank, hhash⟩ := key.exists_first indent node.rest
  have hspaces := fun c hc => isBlank_of_isIndent (isIndent_replicate indent c hc)
  rw [Node.row, hfirst, Block.isContent, dropWhile_append hspaces (stops_cons_iff.mpr hblank)]
  simpa using hhash

theorem isContent_remark (remark : Remark) : Block.isContent remark.text = false := by
  have hblanks := fun c hc => isBlank_of_isIndent (remark.blanks.chars c hc)
  rw [Block.isContent, Remark.text, List.dropWhile_append_of_pos hblanks, Remark.mark]
  cases remark.comment with
  | none => cases remark.ending <;> decide
  | some text => rfl

end ManifestBump.Yaml

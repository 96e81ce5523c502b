import ManifestBump.Proofs.Yaml.Lookup

/-! The lines a lookup comes through.

On its way to a value a lookup goes from line to line, each with a key of the path, deeper every time (`chain?`). It
takes a line with nothing but a comment behind the colon (`Container`), and just as well a line that carries text there
(`Carries`), like the first line of a block scalar; it takes no other lines (`find?_descends`). -/
namespace ManifestBump.Yaml
open Text

/-! ### Behind a colon -/

/-- What may end a line. -/
def LineEnd (text : List Char) : Prop := text ∈ [[], ['\n'], ['\r'], ['\r', '\n']]

/-- Nothing but blanks and a comment, up to the end of the line. A comment has a blank in front. -/
inductive Container : List Char → Prop where
  | blank {blanks ending : List Char} (hblanks : ∀ c ∈ blanks, isIndent c = true) (hending : LineEnd ending) :
      Container (blanks ++ ending)
  | comment {blanks text ending : List Char} (hne : blanks ≠ []) (hblanks : ∀ c ∈ blanks, isIndent c = true)
      (htext : ∀ c ∈ text, inLine c = true) (hending : LineEnd ending) : Container (blanks ++ '#' :: (text ++ ending))

/-- Blanks and then text that is no comment. -/
inductive Carries : List Char → Prop where
  | intro {blanks : List Char} {c : Char} {text ending : List Char} (hne : blanks ≠ [])
      (hblanks : ∀ c ∈ blanks, isIndent c = true) (hc : isSolid c = true)
      (htext : ∀ c ∈ text, inLine c = true) (hending : LineEnd ending) : Carries (blanks ++ c :: (text ++ ending))

theorem LineEnd.stops {ending : List Char} (h : LineEnd ending) {p : Char → Bool} (hfeed : p '\n' = false)
    (hreturn : p '\r' = false) : Stops p ending := by
  simp only [LineEnd, List.mem_cons, List.not_mem_nil, or_false] at h
  rcases h with rfl | rfl | rfl | rfl
  · exact stops_nil
  · exact stops_cons_iff.mpr hfeed
  · exact stops_cons_iff.mpr hreturn
  · exact stops_cons_iff.mpr hreturn

/-- What a container shows behind its blanks. -/
theorem Container.head {behind : List Char} (h : Container behind) :
    ∀ c ∈ (behind.dropWhile isIndent).head?, c = '#' ∨ inLine c = false := by
  cases h with
  | blank hblanks hending =>
    rw [dropWhile_append hblanks (hending.stops (by decide) (by decide))]
    intro c hc
    exact .inr (hending.stops (by decide) (by decide) c hc)
  | comment _ hblanks _ _ =>
    rw [dropWhile_append hblanks (stops_cons_iff.mpr (by decide))]
    rintro c ⟨⟩
    exact .inl rfl

/-- No line is both. -/
theorem Carries.not_container {behind : List Char} (h : Carries behind) : ¬Container behind := by
  intro hcontainer
  obtain ⟨-, hblanks, hc, -, -⟩ := h
  simp only [isSolid, Bool.and_eq_true, Bool.not_eq_true', bne_iff_ne] at hc
  obtain ⟨⟨hindent, hhash⟩, hline⟩ := hc
  have hhead := hcontainer.head
  rw [dropWhile_append hblanks (stops_cons_iff.mpr hindent)] at hhead
  rcases hhead _ rfl with heq | hout
  · exact hhash heq
  · rw [hline] at hout
    cases hout

theorem not_mem_dropLast_of_append {c : Char} {x y : List Char} (h : c ∉ (x ++ y).dropLast) : c ∉ y.dropLast := by
  cases y with
  | nil => simp
  | cons d y =>
    rw [List.dropLast_append_of_ne_nil (by simp)] at h
    exact fun hmem => h (List.mem_append_right _ hmem)

/-- What the end of a line is, when a line feed stands at its very end only. -/
theorem lineEnd_of_isSome {text : List Char} (hline : '\n' ∉ text.dropLast) (h : (lineEnd? text).isSome = true) :
    LineEnd text := by
  unfold lineEnd? at h
  split at h
  · simp [LineEnd]
  · rename_i rest
    cases rest with
    | nil => simp [LineEnd]
    | cons => simp at hline
  · simp [LineEnd]
  · rename_i rest
    cases rest with
    | nil => simp [LineEnd]
    | cons => simp at hline
  · cases h

/-- Blanks, then a run of a line, and its end. -/
theorem container_or_carries_run {blanks run ending : List Char} (hne : blanks ≠ [])
    (hblanks : ∀ c ∈ blanks, isIndent c = true) (hrun : ∀ c ∈ run, inLine c = true)
    (hstops : Stops isIndent (run ++ ending)) (hending : LineEnd ending) :
    Container (blanks ++ (run ++ ending)) ∨ Carries (blanks ++ (run ++ ending)) := by
  cases run with
  | nil => exact .inl (.blank hblanks hending)
  | cons c run =>
    have hindent : isIndent c = false := stops_cons_iff.mp hstops
    have hline : ∀ d ∈ run, inLine d = true := fun d hd => hrun d (List.mem_cons_of_mem _ hd)
    by_cases hhash : c = '#'
    · subst hhash
      exact .inl (.comment hne hblanks hline hending)
    · have hsolid : isSolid c = true := by simp [isSolid, hindent, hhash, hrun c List.mem_cons_self]
      exact .inr (.intro hne hblanks hsolid hline hending)

/-- **Behind the colon of a key that opens a block** there are blanks and a comment, or text. -/
theorem container_or_carries {behind : List Char} (hline : '\n' ∉ behind.dropLast) (h : opensBlock behind = true) :
    Container behind ∨ Carries behind := by
  cases behind with
  | nil => exact .inl (.blank (List.forall_mem_nil _) (by simp [LineEnd]))
  | cons c rest =>
    rw [opensBlock] at h
    split at h
    · rename_i hindent
      obtain ⟨blanks, tail, hcut, hblanks, hstops⟩ := exists_cut isIndent (c :: rest)
      obtain ⟨run, ending, rfl, hrun, hend⟩ := exists_cut inLine tail
      have hne : blanks ≠ [] := by
        rintro rfl
        rw [← List.nil_append (run ++ ending), ← hcut, stops_cons_iff, hindent] at hstops
        cases hstops
      have hinLine : ∀ d ∈ blanks ++ run, inLine d = true := by
        intro d hd
        rcases List.mem_append.mp hd with hd | hd
        · exact inLine_of_isIndent (hblanks d hd)
        · exact hrun d hd
      rw [hcut, ← List.append_assoc] at hline h
      rw [dropWhile_append hinLine hend] at h
      rw [hcut]
      exact container_or_carries_run hne hblanks hrun hstops (lineEnd_of_isSome (not_mem_dropLast_of_append hline) h)
    · have hending : LineEnd (c :: rest) := lineEnd_of_isSome hline h
      rw [← List.nil_append (c :: rest)]
      exact .inl (.blank (List.forall_mem_nil _) hending)

/-! ### The chain of a lookup -/

/-- A key on the way to a value, and the line it stands on. -/
structure Link where
  key : List Char
  /-- Where the line begins. -/
  offset : Nat
  indent : Nat
  /-- The line up to the colon. -/
  lead : List Char
  behind : List Char
deriving DecidableEq, Repr

/-- The whole line. -/
def Link.line (link : Link) : List Char := link.lead ++ link.behind

/-- What the block under a key on a line holds, and the way to it. -/
def linkIn (inner : Nat → List (List Char) → Option (List Link × Occurrence)) (key : List Char)
    (indent offset : Nat) (line : List Char) (rest : List (List Char)) : Option (List Link × Occurrence) :=
  (frontOf? key line).bind fun front =>
    if front.1 = indent ∧ opensBlock front.2.2 = true then
      (Block.childLines? indent rest).bind fun block =>
        (inner (offset + line.length) block).map fun found =>
          (⟨key, offset, indent, front.2.1, front.2.2⟩ :: found.1, found.2)
    else none

/-- What the first block under a key holds that holds anything, and the way to it. -/
def findLink (inner : Nat → List (List Char) → Option (List Link × Occurrence)) (key : List Char)
    (indent : Nat) : (offset : Nat) → List (List Char) → Option (List Link × Occurrence)
  | _, [] => none
  | offset, line :: rest =>
    (linkIn inner key indent offset line rest).or (findLink inner key indent (offset + line.length) rest)

/-- What a path names in lines that begin at an offset, and the way to it. -/
def chain? (leaf : List Char) :
    List (List Char) → (offset : Nat) → List (List Char) → Option (List Link × Occurrence)
  | [], offset, ls => (findLines leaf [] offset ls).map fun found => ([], found)
  | key :: keys, offset, ls =>
    (firstIndent? ls).bind fun indent => findLink (chain? leaf keys) key indent offset ls

theorem linkIn_snd {inner : Nat → List (List Char) → Option (List Link × Occurrence)}
    {inner' : Nat → List (List Char) → Option Occurrence}
    (h : ∀ offset ls, (inner offset ls).map Prod.snd = inner' offset ls) (key : List Char) (indent offset : Nat)
    (line : List Char) (rest : List (List Char)) :
    (linkIn inner key indent offset line rest).map Prod.snd = parentIn inner' key indent offset line rest := by
  unfold linkIn parentIn
  rw [parentOf?, parent?_eq]
  cases frontOf? key line with
  | none => rfl
  | some front =>
    obtain ⟨i, lead, behind⟩ := front
    simp only [Option.bind_some]
    by_cases hopens : opensBlock behind = true
    · by_cases hindent : i = indent
      · simp only [hopens, hindent, and_self, if_true]
        cases Block.childLines? indent rest with
        | none => rfl
        | some block => simp only [Option.bind_some, Option.map_map, ← h, Function.comp_def]
      · simp [hopens, hindent]
    · simp [hopens]

/-- **The way leads to what the lookup finds.** -/
theorem chain?_snd (leaf : List Char) (keys : List (List Char)) (offset : Nat) (ls : List (List Char)) :
    (chain? leaf keys offset ls).map Prod.snd = findLines leaf keys offset ls := by
  induction keys generalizing offset ls with
  | nil => rw [chain?, Option.map_map, Function.comp_def, Option.map_id']
  | cons key keys ih =>
    rw [chain?, findLines]
    cases firstIndent? ls with
    | none => rfl
    | some indent =>
      simp only [Option.bind_some]
      induction ls generalizing offset with
      | nil => rfl
      | cons line rest ihl => rw [findLink, findParent, Option.map_or, linkIn_snd ih, ihl]

/-! ### The links of a chain -/

/-- What a link is to lines that begin at an offset, and to what is found: its key stands on one of them, opens a block
there, and the value stands behind the line. -/
structure Link.Leads (link : Link) (offset : Nat) (ls : List (List Char)) (found : Occurrence) : Prop where
  onLine : ∃ front back, ls = front ++ link.line :: back ∧ link.offset = offset + front.flatten.length
  spelled : Spelled link.key link.lead link.indent
  opens : opensBlock link.behind = true
  inFront : link.offset + link.line.length ≤ found.value.start

/-- A link in a run of lines is one in all of them. -/
theorem Link.Leads.lift {link : Link} {offset : Nat} {front block back : List (List Char)} {found : Occurrence}
    (h : link.Leads (offset + front.flatten.length) block found) : link.Leads offset (front ++ block ++ back) found := by
  obtain ⟨front', back', rfl, hoffset⟩ := h.onLine
  refine ⟨⟨front ++ front', back' ++ back, by simp, ?_⟩, h.spelled, h.opens, h.inFront⟩
  rw [hoffset, List.flatten_append, List.length_append, Nat.add_assoc]

theorem exists_of_findLink {inner : Nat → List (List Char) → Option (List Link × Occurrence)} {key : List Char}
    {indent offset : Nat} {ls : List (List Char)} {answer : List Link × Occurrence}
    (h : findLink inner key indent offset ls = some answer) :
    ∃ front line back, ls = front ++ line :: back ∧
      linkIn inner key indent (offset + front.flatten.length) line back = some answer := by
  induction ls generalizing offset with
  | nil => cases h
  | cons line rest ih =>
    rw [findLink, Option.or_eq_some_iff] at h
    rcases h with h | ⟨-, h⟩
    · exact ⟨[], line, rest, rfl, h⟩
    · obtain ⟨front, line', back, rfl, hlink⟩ := ih h
      refine ⟨line :: front, line', back, rfl, ?_⟩
      rwa [List.flatten_cons, List.length_append, ← Nat.add_assoc]

theorem linkIn_eq_some_iff {inner : Nat → List (List Char) → Option (List Link × Occurrence)} {key line : List Char}
    {indent offset : Nat} {rest : List (List Char)} {links : List Link} {found : Occurrence} :
    linkIn inner key indent offset line rest = some (links, found) ↔
      ∃ lead behind block more, frontOf? key line = some (indent, lead, behind) ∧ opensBlock behind = true ∧
        Block.childLines? indent rest = some block ∧ inner (offset + line.length) block = some (more, found) ∧
        links = ⟨key, offset, indent, lead, behind⟩ :: more := by
  unfold linkIn
  constructor
  · intro h
    obtain ⟨⟨i, lead, behind⟩, hfront, h⟩ := Option.bind_eq_some_iff.mp h
    split at h
    · rename_i hopens
      obtain ⟨rfl, hopens⟩ := hopens
      obtain ⟨block, hblock, h⟩ := Option.bind_eq_some_iff.mp h
      obtain ⟨⟨more, found⟩, hinner, heq⟩ := Option.map_eq_some_iff.mp h
      cases heq
      exact ⟨lead, behind, block, more, hfront, hopens, hblock, hinner, rfl⟩
    · cases h
  · rintro ⟨lead, behind, block, more, hfront, hopens, hblock, hinner, rfl⟩
    simp [hfront, hopens, hblock, hinner]

/-- A block is deeper than the key it stands under. -/
theorem lt_firstIndent?_of_childLines? {parent indent : Nat} {ls block : List (List Char)}
    (h : Block.childLines? parent ls = some block) (hindent : firstIndent? block = some indent) : parent < indent := by
  rcases Block.childLines?_cases parent ls with ⟨hnone, -⟩ | ⟨deeper, own, hdeeper, hbehind, hlongest, hown⟩
  · rw [h] at hnone
    cases hnone
  · obtain rfl := Option.some.inj (h.symm.trans hown)
    rw [(Block.indentedBy_iff.mpr hindent).unique (hlongest.indentedBy hbehind)]
    exact hdeeper

theorem le_of_findLeaf {leaf : List Char} {indent offset : Nat} {ls : List (List Char)} {found : Occurrence}
    (h : findLeaf leaf indent offset ls = some found) : offset ≤ found.value.start := by
  induction ls generalizing offset with
  | nil => cases h
  | cons line rest ih =>
    rw [findLeaf, Option.or_eq_some_iff] at h
    rcases h with h | ⟨-, h⟩
    · obtain ⟨⟨i, slot⟩, -, h⟩ := Option.bind_eq_some_iff.mp h
      split at h
      · cases h
        exact Nat.le_add_right _ _
      · cases h
    · exact (Nat.le_add_right _ _).trans (ih h)

/-- What is true of the way to a value. -/
structure Way (keys : List (List Char)) (offset : Nat) (ls : List (List Char)) (links : List Link)
    (found : Occurrence) : Prop where
  keys_eq : links.map Link.key = keys
  deeper : links.Pairwise fun link next => link.indent < next.indent
  indent_le : ∀ link ∈ links, ∃ indent, firstIndent? ls = some indent ∧ indent ≤ link.indent
  leads : ∀ link ∈ links, link.Leads offset ls found
  offset_le : offset ≤ found.value.start

/-- **A way goes on.** A key that opens a block on one of the lines, and a way through the block, are a way through the
lines. -/
theorem Way.cons {key lead behind : List Char} {keys front back block : List (List Char)} {offset indent : Nat}
    {links : List Link} {found : Occurrence} (hindent : firstIndent? (front ++ (lead ++ behind) :: back) = some indent)
    (hspelled : Spelled key lead indent) (hopens : opensBlock behind = true)
    (hblock : Block.childLines? indent back = some block)
    (hway : Way keys (offset + front.flatten.length + (lead ++ behind).length) block links found) :
    Way (key :: keys) offset (front ++ (lead ++ behind) :: back)
      (⟨key, offset + front.flatten.length, indent, lead, behind⟩ :: links) found := by
  obtain ⟨⟨others, rfl⟩, -⟩ := exists_of_childLines? hblock
  have hstart := hway.offset_le
  have hdeeper : ∀ link ∈ links, indent < link.indent := by
    intro link hmem
    obtain ⟨inner, hfirst, hle⟩ := hway.indent_le link hmem
    exact (lt_firstIndent?_of_childLines? hblock hfirst).trans_le hle
  refine ⟨by rw [List.map_cons, hway.keys_eq], List.pairwise_cons.mpr ⟨hdeeper, hway.deeper⟩, fun link hmem => ?_,
    fun link hmem => ?_, by omega⟩
  all_goals rcases List.mem_cons.mp hmem with rfl | hmem
  · exact ⟨indent, hindent, le_rfl⟩
  · exact ⟨indent, hindent, (hdeeper link hmem).le⟩
  · exact ⟨⟨front, block ++ others, rfl, rfl⟩, hspelled, hopens, hstart⟩
  · have hleads := hway.leads link hmem
    have hlift : link.Leads offset (front ++ [lead ++ behind] ++ block ++ others) found :=
      Link.Leads.lift (by simpa [Nat.add_assoc] using hleads)
    simpa using hlift

/-- **Every link of a way leads on, deeper and deeper.** -/
theorem way_of_chain? {leaf : List Char} {keys : List (List Char)} {offset : Nat} {ls : List (List Char)}
    {links : List Link} {found : Occurrence} (h : chain? leaf keys offset ls = some (links, found)) :
    Way keys offset ls links found := by
  induction keys generalizing offset ls links with
  | nil =>
    obtain ⟨found, hfound, heq⟩ := Option.map_eq_some_iff.mp h
    cases heq
    obtain ⟨indent, -, hleaf⟩ := Option.bind_eq_some_iff.mp hfound
    exact ⟨rfl, .nil, by simp, by simp, le_of_findLeaf hleaf⟩
  | cons key keys ih =>
    obtain ⟨indent, hindent, hfirst⟩ := Option.bind_eq_some_iff.mp h
    obtain ⟨front, line, back, rfl, hlink⟩ := exists_of_findLink hfirst
    obtain ⟨lead, behind, block, more, hfront, hopens, hblock, hinner, rfl⟩ := linkIn_eq_some_iff.mp hlink
    obtain ⟨rfl, hspelled, -⟩ := frontOf?_eq_some_iff.mp hfront
    exact .cons hindent hspelled hopens hblock (ih hinner)

/-- Behind the colon of a link there are blanks and a comment exactly if there is no text. -/
theorem Link.Leads.container_iff {link : Link} {offset : Nat} {ls : List (List Char)} {found : Occurrence}
    (h : link.Leads offset ls found) (hls : Lines ls) : Container link.behind ↔ ¬Carries link.behind := by
  obtain ⟨front, back, rfl, -⟩ := h.onLine
  have hmem : link.lead ++ link.behind ∈ front ++ link.line :: back := by simp [Link.line]
  have hline : '\n' ∉ link.behind.dropLast := not_mem_dropLast_of_append (hls.not_mem_dropLast hmem)
  constructor
  · exact fun hcontainer hcarries => hcarries.not_container hcontainer
  · exact (container_or_carries hline h.opens).resolve_right

/-- **A lookup comes through lines that open blocks, and through lines that carry text.** The way to what is found has a
link for each key in front of the last one, each on a line of the text and deeper than the one before. Behind the colon
of a link there is nothing but blanks and a comment, unless the line carries text; so where no key of the path stands on
a line that does, all links are containers. -/
theorem find?_descends {text : List Char} {path : KeyPath} {found : Occurrence}
    (hkeys : ∀ key ∈ path.segments, '\n' ∉ key.toList) (h : find? text path = some found) :
    ∃ links, chain? path.leaf.toList (path.parents.map String.toList) 0 (lines text) = some (links, found) ∧
      links.map Link.key = path.parents.map String.toList ∧
      links.Pairwise (fun link next => link.indent < next.indent) ∧
      (∀ link ∈ links, link.Leads 0 (lines text) found ∧ (Container link.behind ↔ ¬Carries link.behind)) ∧
      ((∀ line ∈ lines text, ∀ key ∈ path.parents, ∀ lead behind indent, line = lead ++ behind →
          Spelled key.toList lead indent → ¬Carries behind) → ∀ link ∈ links, Container link.behind) := by
  rw [find?_eq_findLines hkeys, ← chain?_snd] at h
  obtain ⟨⟨links, found⟩, hchain, rfl⟩ := Option.map_eq_some_iff.mp h
  have hway := way_of_chain? hchain
  have hcontainer : ∀ link ∈ links, Container link.behind ↔ ¬Carries link.behind :=
    fun link hmem => (hway.leads link hmem).container_iff (lines_lines text)
  refine ⟨links, hchain, hway.keys_eq, hway.deeper, fun link hmem => ⟨hway.leads link hmem, hcontainer link hmem⟩,
    fun hclean link hmem => (hcontainer link hmem).mpr ?_⟩
  have hleads := hway.leads link hmem
  have hkey : link.key ∈ path.parents.map String.toList := hway.keys_eq ▸ List.mem_map_of_mem hmem
  obtain ⟨key, hkey, heq⟩ := List.mem_map.mp hkey
  obtain ⟨front, back, hline, -⟩ := hleads.onLine
  exact hclean link.line (by simp [hline]) key hkey link.lead link.behind link.indent rfl (heq ▸ hleads.spelled)

/-- Two mappings, one in the other. -/
def nested : List Char := "a: # top\n  b:\n    c: 1\n".toList

theorem find?_descends_nested :
    (∀ key ∈ KeyPath.segments ⟨["a", "b"], "c"⟩, '\n' ∉ key.toList) ∧
      find? nested ⟨["a", "b"], "c"⟩ = some ⟨⟨14, 22⟩, ⟨21, 22⟩⟩ ∧
      ∃ links, chain? ['c'] [['a'], ['b']] 0 (lines nested) = some (links, ⟨⟨14, 22⟩, ⟨21, 22⟩⟩) ∧
        links.map Link.key = [['a'], ['b']] ∧ links.Pairwise (fun link next => link.indent < next.indent) ∧
        (∀ link ∈ links, link.Leads 0 (lines nested) ⟨⟨14, 22⟩, ⟨21, 22⟩⟩ ∧
          (Container link.behind ↔ ¬Carries link.behind)) ∧
        ((∀ line ∈ lines nested, ∀ key ∈ ["a", "b"], ∀ lead behind indent, line = lead ++ behind →
          Spelled key.toList lead indent → ¬Carries behind) → ∀ link ∈ links, Container link.behind) := by
  have hkeys : ∀ key ∈ KeyPath.segments ⟨["a", "b"], "c"⟩, '\n' ∉ key.toList := by decide
  have hfound : find? nested ⟨["a", "b"], "c"⟩ = some ⟨⟨14, 22⟩, ⟨21, 22⟩⟩ := by decide +kernel
  exact ⟨hkeys, hfound, find?_descends hkeys hfound⟩

/-- A scalar of several lines, the first of which tells how they are joined. -/
def blockScalar : List Char := "a: |\n  b: 1\n".toList

/-- **The text of a scalar is taken for a mapping.** -/
theorem find?_blockScalar :
    ∃ link found, find? blockScalar ⟨["a"], "b"⟩ = some found ∧
      chain? ['b'] [['a']] 0 (lines blockScalar) = some ([link], found) ∧ link.behind = [' ', '|', '\n'] ∧
      ¬Container link.behind := by
  refine ⟨⟨['a'], 0, 0, ['a', ':'], [' ', '|', '\n']⟩, ⟨⟨5, 11⟩, ⟨10, 11⟩⟩, by decide +kernel, by decide +kernel, rfl,
    ?_⟩
  intro hcontainer
  rcases hcontainer.head '|' rfl with heq | hout
  · cases heq
  · cases hout

end ManifestBump.Yaml

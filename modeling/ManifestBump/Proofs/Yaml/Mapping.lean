import ManifestBump.Manifest.Basic
import ManifestBump.Proofs.Yaml.Lookup
import ManifestBump.Proofs.Yaml.Row

/-! The lookup in the text of block mappings.

Lines of nested mappings are deeper than the mapping, so none of them is taken for a line of its own
(`Mapping.mem_rows`), and the block below a key is the nested mapping (`childLines?_rows`). So the lookup by
lines goes through the entries of the mapping (`loop_rows`), and a path is resolved in the text as it is in the
tree (`resolve_mapping`). -/
namespace ManifestBump.Yaml
open Text

/-! ### Lines of mappings -/

/-- A line in a mapping: a remark, or the line of a key that is at least so deep. -/
inductive Deep (indent : Nat) : List Char → Prop where
  | remark (remark : Remark) : Deep indent remark.text
  | row {depth : Nat} (h : indent ≤ depth) (key : Key) (node : Node) : Deep indent (node.row depth key)

theorem Deep.mono {indent indent' : Nat} (hle : indent' ≤ indent) {row : List Char} (h : Deep indent row) :
    Deep indent' row := by
  cases h with
  | remark remark => exact .remark remark
  | row h key node => exact .row (hle.trans h) key node

theorem deep_of_mem_remarks {rs : List Remark} {row : List Char} (h : row ∈ remarks rs) (indent : Nat) :
    Deep indent row := by
  obtain ⟨remark, -, rfl⟩ := List.mem_map.mp h
  exact .remark remark

mutual

theorem Node.mem_rows {indent : Nat} {row : List Char} : ∀ node : Node, row ∈ node.rows indent →
    Deep (indent + 1) row
  | .scalar .., h => absurd h List.not_mem_nil
  | .block _ deeper mapping, h => (mapping.mem_rows h).mono (by omega)

theorem Mapping.mem_rows {indent : Nat} {row : List Char} : ∀ mapping : Mapping, row ∈ mapping.rows indent →
    Deep indent row
  | .one before key node, h => by
    rcases List.mem_append.mp h with h | h
    · exact deep_of_mem_remarks h indent
    · rcases List.mem_cons.mp h with rfl | h
      · exact .row le_rfl key node
      · exact (node.mem_rows h).mono (by omega)
  | .more before key node rest, h => by
    rcases List.mem_append.mp h with h | h
    · exact deep_of_mem_remarks h indent
    · rcases List.mem_cons.mp h with rfl | h
      · exact .row le_rfl key node
      · rcases List.mem_append.mp h with h | h
        · exact (node.mem_rows h).mono (by omega)
        · exact rest.mem_rows h

end

/-- A mapping begins with remarks and the line of a key. -/
theorem Mapping.exists_row (indent : Nat) (mapping : Mapping) : ∃ before key node below,
    mapping.rows indent = remarks before ++ Node.row indent key node :: below := by
  cases mapping with
  | one before key node => exact ⟨before, key, node, _, rfl⟩
  | more before key node rest => exact ⟨before, key, node, _, rfl⟩

theorem find?_remarks (rs : List Remark) : (remarks rs).find? Block.isContent = none := by
  rw [List.find?_eq_none]
  intro row hrow
  obtain ⟨remark, -, rfl⟩ := List.mem_map.mp hrow
  simp [isContent_remark]

theorem firstIndent?_rows (mapping : Mapping) (indent : Nat) (rest : List (List Char)) :
    firstIndent? (mapping.rows indent ++ rest) = some indent := by
  obtain ⟨before, key, node, below, heq⟩ := mapping.exists_row indent
  rw [heq, firstIndent?, List.append_assoc, List.find?_append, find?_remarks, Option.none_or, List.cons_append,
    List.find?_cons_of_pos (isContent_row indent key node), Option.map_some, indentOf_row]

/-! ### Blocks -/

/-- What stands behind an entry of a mapping: remarks, and then nothing or the line of another of its keys. -/
inductive Behind (indent : Nat) : List (List Char) → Prop where
  | remarks (rs : List Remark) : Behind indent (remarks rs)
  | row (rs : List Remark) (key : Key) (node : Node) (more : List (List Char)) :
    Behind indent (Yaml.remarks rs ++ node.row indent key :: more)

theorem childLines?_remarks (parent : Nat) (rs : List Remark) (rest : List (List Char)) :
    Block.childLines? parent (remarks rs ++ rest) = (Block.childLines? parent rest).map (remarks rs ++ ·) := by
  induction rs with
  | nil =>
    show Block.childLines? parent rest = (Block.childLines? parent rest).map fun ls => ls
    rw [Option.map_id']
  | cons remark rs ih =>
    show Block.childLines? parent (remark.text :: (remarks rs ++ rest)) = _
    rw [Block.childLines?, isContent_remark, if_neg Bool.false_ne_true, ih, Option.map_map]
    rfl

/-- No block is below a scalar. -/
theorem Behind.childLines? {indent : Nat} {rest : List (List Char)} (h : Behind indent rest) :
    Block.childLines? indent rest = none := by
  cases h with
  | remarks rs =>
    have hnone := childLines?_remarks indent rs []
    rwa [List.append_nil] at hnone
  | row rs key node more =>
    rw [childLines?_remarks, Block.childLines?, isContent_row, indentOf_row, if_pos rfl, if_neg (lt_irrefl _),
      Option.map_none]

/-- A line that a block goes on with. -/
theorem Deep.goesOn {indent : Nat} {row : List Char} (h : Deep indent row) :
    (!Block.isContent row || decide (indent ≤ Block.indentOf row)) = true := by
  cases h with
  | remark remark => rw [isContent_remark]; rfl
  | row h key node => simp [indentOf_row, h]

/-- **The block below a key is its mapping**, and the remarks behind it. -/
theorem childLines?_rows {indent : Nat} (deeper : Nat) (mapping : Mapping) {rest : List (List Char)}
    (h : Behind indent rest) :
    ∃ behind : List Remark, Block.childLines? indent (mapping.rows (indent + deeper + 1) ++ rest) =
      some (mapping.rows (indent + deeper + 1) ++ remarks behind) := by
  obtain ⟨before, key, node, below, heq⟩ := mapping.exists_row (indent + deeper + 1)
  have hbelow : ∀ row ∈ below, Deep (indent + deeper + 1) row := by
    intro row hrow
    exact mapping.mem_rows (by rw [heq]; simp [hrow])
  have hblock : ∀ (behind : List Remark) (more : List (List Char)),
      Stops (fun row => !Block.isContent row || decide (indent + deeper + 1 ≤ Block.indentOf row)) more →
      Block.childLines? indent (mapping.rows (indent + deeper + 1) ++ (remarks behind ++ more)) =
        some (mapping.rows (indent + deeper + 1) ++ remarks behind) := by
    intro behind more hstops
    have hrun : ∀ row ∈ below ++ remarks behind,
        (!Block.isContent row || decide (indent + deeper + 1 ≤ Block.indentOf row)) = true := by
      intro row hrow
      rcases List.mem_append.mp hrow with hrow | hrow
      · exact (hbelow row hrow).goesOn
      · exact (deep_of_mem_remarks hrow _).goesOn
    have hlt : indent < indent + deeper + 1 := by omega
    rw [heq, List.append_assoc, childLines?_remarks, List.cons_append, Block.childLines?, isContent_row,
      indentOf_row, if_pos rfl, if_pos hlt, ← List.append_assoc, takeWhile_append hrun hstops]
    simp
  cases h with
  | remarks rs =>
    refine ⟨rs, ?_⟩
    have hall := hblock rs [] stops_nil
    rwa [List.append_nil] at hall
  | row rs key node more =>
    refine ⟨rs, hblock rs _ (stops_cons_iff.mpr ?_)⟩
    rw [isContent_row, indentOf_row]
    simp

/-! ### Entries -/

section Entry
variable {name : List Char} (hname : ∀ c ∈ name, isKeyChar c = true) {indent : Nat} (offset : Nat)
include hname

/-- No line of a deeper mapping is one of the mapping itself. -/
theorem leafIn_deep {row : List Char} (h : Deep (indent + 1) row) : leafIn name indent offset row = none := by
  cases h with
  | remark remark => simp [leafIn, leafOf?, leaf?_eq, frontOf?_remark remark hname]
  | row h key node =>
    rename_i depth
    have hne : depth ≠ indent := by omega
    rw [leafIn, leafOf?, leaf?_eq, Node.row, frontOf?_lead key depth node.rest hname]
    split
    · cases value? node.rest <;> simp [hne]
    · rfl

theorem parentOf?_deep {row : List Char} (h : Deep (indent + 1) row) : parentOf? name row ≠ some indent := by
  cases h with
  | remark remark => simp [parentOf?, parent?_eq, frontOf?_remark remark hname]
  | row h key node =>
    rename_i depth
    have hne : depth ≠ indent := by omega
    rw [parentOf?, parent?_eq, Node.row, frontOf?_lead key depth node.rest hname]
    split
    · cases hopens : opensBlock node.rest <;> simp [hopens, hne]
    · simp

/-- The value on the line of a key is its scalar. -/
theorem leafIn_row (key : Key) (node : Node) :
    (leafIn name indent offset (node.row indent key)).map Occurrence.value =
      if key.text = name then node.scalar? key indent offset else none := by
  rw [leafIn, leafOf?, leaf?_eq, Node.row, frontOf?_lead key indent node.rest hname]
  split
  · cases node with
    | scalar gap apart literal trail =>
      obtain ⟨close, hclose⟩ := value?_scalar gap apart literal trail
      simp [hclose, Slot.behind, Slot.occurrence, Node.scalar?]
    | block trail deeper mapping =>
      have hnone : value? (Node.block trail deeper mapping).rest = none := value?_trail trail
      simp [hnone, Node.scalar?]
  · rfl

/-- What a block on the line of a key holds is what its mapping holds. -/
theorem parentIn_row {inner : Nat → List (List Char) → Option Occurrence}
    {answer : Nat → Nat → Mapping → Option Span}
    (hinner : ∀ indent offset mapping behind,
      (inner offset (Mapping.rows indent mapping ++ remarks behind)).map Occurrence.value =
        answer indent offset mapping)
    (key : Key) (node : Node) {rest : List (List Char)} (h : Behind indent rest) :
    (parentIn inner name indent offset (node.row indent key) (node.rows indent ++ rest)).map Occurrence.value =
      if key.text = name then
        (node.inner? indent).bind fun (inner, mapping) =>
          answer inner (offset + (node.row indent key).length) mapping
      else none := by
  rw [parentIn, parentOf?, parent?_eq, Node.row, frontOf?_lead key indent node.rest hname]
  by_cases heq : key.text = name
  · rw [if_pos heq, if_pos heq]
    cases node with
    | scalar gap apart literal trail =>
      have hnone : Block.childLines? indent ((Node.scalar gap apart literal trail).rows indent ++ rest) = none :=
        h.childLines?
      simp [hnone, Node.inner?]
    | block trail deeper mapping =>
      have hopens : opensBlock (Node.block trail deeper mapping).rest = true := opensBlock_trail trail
      obtain ⟨behind, hblock⟩ := childLines?_rows deeper mapping h
      have hlines : Block.childLines? indent ((Node.block trail deeper mapping).rows indent ++ rest) =
          some (mapping.rows (indent + deeper + 1) ++ remarks behind) := hblock
      simp only [hopens, hlines, Option.bind_some, if_true, Node.inner?]
      exact hinner _ _ _ _
  · simp [heq]

end Entry

/-! ### The lookup -/

section Loop
variable (answer : Nat → List Char → List (List Char) → Option Occurrence)
  {loop : Nat → List (List Char) → Option Occurrence} (hnil : ∀ offset, loop offset [] = none)
  (hcons : ∀ offset line rest, loop offset (line :: rest) =
    (answer offset line rest).or (loop (offset + line.length) rest))
  {indent : Nat} (hdeep : ∀ row, Deep (indent + 1) row → ∀ offset rest, answer offset row rest = none)
include hcons hdeep

/-- Deeper lines are passed over. -/
theorem loop_deep {rows : List (List Char)} (h : ∀ row ∈ rows, Deep (indent + 1) row) (offset : Nat)
    (rest : List (List Char)) : loop offset (rows ++ rest) = loop (offset + rows.flatten.length) rest := by
  induction rows generalizing offset with
  | nil => rfl
  | cons row rows ih =>
    rw [List.cons_append, hcons, hdeep row (h row List.mem_cons_self), Option.none_or,
      ih fun row hrow => h row (List.mem_cons_of_mem _ hrow), List.flatten_cons, List.length_append, Nat.add_assoc]

include hnil

/-- **A loop over the lines of a mapping goes through its entries.** -/
theorem loop_rows {reference : Nat → Key → Node → Option Span}
    (hentry : ∀ offset key node rest, Behind indent rest →
      (answer offset (Node.row indent key node) (node.rows indent ++ rest)).map Occurrence.value =
        reference offset key node) (behind : List Remark) :
    ∀ (mapping : Mapping) (offset : Nat),
      (loop offset (mapping.rows indent ++ remarks behind)).map Occurrence.value =
        mapping.first reference indent offset
  | .one before key node, offset => by
    have hend : ∀ offset, loop offset (node.rows indent ++ remarks behind) = none := by
      intro offset
      have hremarks : ∀ row ∈ remarks behind, Deep (indent + 1) row := fun row hrow => deep_of_mem_remarks hrow _
      have hlast := loop_deep answer hcons hdeep hremarks (offset + (node.rows indent).flatten.length) []
      rw [List.append_nil, hnil] at hlast
      rw [loop_deep answer hcons hdeep fun row hrow => node.mem_rows hrow, hlast]
    rw [Mapping.rows, List.append_assoc, loop_deep answer hcons hdeep (fun row hrow => deep_of_mem_remarks hrow _),
      List.cons_append, hcons, hend, Option.or_none, hentry _ key node _ (.remarks behind), Mapping.first]
  | .more before key node rest, offset => by
    have hbehind : Behind indent (rest.rows indent ++ remarks behind) := by
      obtain ⟨before', key', node', below, heq⟩ := rest.exists_row indent
      rw [heq, List.append_assoc]
      exact .row before' key' node' _
    have hrest := loop_rows hentry behind rest
    have hentry' := hentry (offset + (remarks before).flatten.length) key node _ hbehind
    rw [Mapping.rows, List.append_assoc, loop_deep answer hcons hdeep (fun row hrow => deep_of_mem_remarks hrow _),
      List.cons_append, hcons, List.append_assoc,
      loop_deep answer hcons hdeep (fun row hrow => node.mem_rows hrow), Mapping.first, ← hentry', Option.map_or,
      hrest, List.flatten_cons, List.length_append, Nat.add_assoc, Nat.add_assoc]

end Loop

/-- **The lookup in the lines of a mapping finds what the lookup in its entries finds.** -/
theorem findLines_rows {leaf : List Char} (hleaf : ∀ c ∈ leaf, isKeyChar c = true) {names : List (List Char)}
    (hnames : ∀ name ∈ names, ∀ c ∈ name, isKeyChar c = true) (indent offset : Nat) (mapping : Mapping)
    (behind : List Remark) :
    (findLines leaf names offset (mapping.rows indent ++ remarks behind)).map Occurrence.value =
      mapping.lookup leaf names indent offset := by
  induction names generalizing indent offset mapping behind with
  | nil =>
    rw [findLines, firstIndent?_rows, Option.bind_some, Mapping.lookup]
    refine loop_rows (fun offset line _ => leafIn leaf indent offset line) (fun _ => rfl) (fun _ _ _ => rfl)
      (fun row hrow offset _ => leafIn_deep hleaf offset hrow) ?_ behind mapping offset
    exact fun offset key node rest _ => leafIn_row hleaf offset key node
  | cons name names ih =>
    have hname := hnames name List.mem_cons_self
    have hothers := fun name hmem => hnames name (List.mem_cons_of_mem _ hmem)
    rw [findLines, firstIndent?_rows, Option.bind_some, Mapping.lookup]
    refine loop_rows (parentIn (findLines leaf names) name indent) (fun _ => rfl) (fun _ _ _ => rfl)
      ?_ ?_ behind mapping offset
    · exact fun row hrow offset rest => if_neg (parentOf?_deep hname hrow)
    · intro offset key node rest hrest
      exact parentIn_row hname offset (fun indent offset mapping behind => ih hothers indent offset mapping behind)
        key node hrest

/-- **A path is resolved in the text of a document as it is in the tree**, for keys over the alphabet of keys:
the place is the same, or there is none. -/
theorem resolve_mapping (d : Document) (path : KeyPath)
    (hkeys : ∀ key ∈ path.segments, ∀ c ∈ key.toList, isKeyChar c = true) :
    (Locator.yaml.resolve (String.ofList d.text) path).map Occurrence.value =
      match d.lookup path with
      | some span => .ok span
      | none => .error (.notFound (.key path.text)) := by
  obtain ⟨hleaf, hnames⟩ := KeyPath.forall_toList (P := fun name => ∀ c ∈ name, isKeyChar c = true) hkeys
  have hfeeds : ∀ key ∈ path.segments, '\n' ∉ key.toList :=
    fun key hkey hmem => absurd (hkeys key hkey '\n' hmem) (by decide)
  have hlookup : (Yaml.find? d.text path).map Occurrence.value = d.lookup path := by
    rw [find?_eq_findLines hfeeds, Document.text, lines_flatten d.lines, Document.lookup]
    cases d.root with
    | none =>
      have hnone : firstIndent? (remarks d.behind) = none := by
        rw [firstIndent?, Option.map_eq_none_iff, find?_remarks]
      rw [rootRows, List.nil_append, Option.bind_none]
      cases path.parents.map String.toList <;> simp [findLines, hnone]
    | some root => exact findLines_rows hleaf hnames d.indent 0 root d.behind
  unfold Locator.resolve Locator.find?
  simp only [String.toList_ofList, Locator.keyText]
  rw [← hlookup]
  cases Yaml.find? d.text path <;> rfl

/-- So many spaces. -/
def Blanks.spaces (n : Nat) : Blanks := ⟨List.replicate n ' ', isIndent_replicate n⟩

/-- A comment behind so many spaces. -/
def Remark.spaced (n : Nat) (text : List Char) (h : text.all Yaml.inLine = true) (ending : Ending) : Remark where
  blanks := .spaces n
  comment := some text
  chars := by
    rintro _ ⟨⟩
    exact List.all_eq_true.mp h
  ending := ending

/-- A comment behind a space. -/
def Trail.spaced (text : List Char) (h : text.all inLine = true) (ending : Ending) : Trail where
  toRemark := .spaced 1 text h ending
  apart := by
    rintro - ⟨⟩

/-- Nothing but what ends a line. -/
def Trail.bare (ending : Ending) : Trail where
  blanks := .spaces 0
  comment := none
  chars := by
    rintro _ ⟨⟩
  ending := ending
  apart h := absurd rfl h

/-- A key of one character. -/
def Key.char (c : Char) (h : isKeyChar c = true) (quote : Option Quote) : Key :=
  ⟨[c], by simp, fun d hd => by rwa [List.mem_singleton.mp hd], quote⟩

/-- A character between quotes. -/
def Literal.quotedChar (c : Char) (h : inLine c = true ∧ isQuote c = false) : Literal :=
  .quoted .single [c] fun d hd => by rwa [List.mem_singleton.mp hd]

/-- A character without quotes. -/
def Literal.plainChar (c : Char) (h : isBlank c = false ∧ isQuote c = false ∧ c ≠ '#') : Literal :=
  .plain ⟨c, [], h, List.forall_mem_nil _, by simp, by simp⟩

/-- A document with a key twice, first with a scalar and then with a mapping. -/
def repeated : Document where
  indent := 0
  root := some <|
    .more [] (.char 'a' rfl none) (.scalar (.spaces 1) (by decide) (.plainChar 'x' (by decide)) (.bare .feed)) <|
    .one [] (.char 'a' rfl none) <| .block (.bare .returnFeed) 1 <|
      .one [.spaced 1 [' ', 'b', ':', ' ', '1'] rfl .feed] (.char 'b' rfl (some .double))
        (.scalar (.spaces 1) (by decide) (.quotedChar 'y' (by decide)) (.spaced [] rfl .nothing))
  behind := []
  lines := by
    have hlines := lines_lines "a: x\na:\r\n # b: 1\n  \"b\": 'y' #".toList
    exact hlines

example : String.ofList repeated.text = "a: x\na:\r\n # b: 1\n  \"b\": 'y' #" := by decide +kernel

theorem resolve_repeated :
    (Locator.yaml.resolve (String.ofList repeated.text) ⟨["a"], "b"⟩).map Occurrence.value = .ok ⟨25, 26⟩ := by
  have hkeys : ∀ key ∈ KeyPath.segments ⟨["a"], "b"⟩, ∀ c ∈ key.toList, isKeyChar c = true := by
    simp [KeyPath.segments, isKeyChar, isBlank, isQuote]
  have hlookup : repeated.lookup ⟨["a"], "b"⟩ = some ⟨25, 26⟩ := by decide +kernel
  rw [resolve_mapping repeated ⟨["a"], "b"⟩ hkeys, hlookup]

end ManifestBump.Yaml

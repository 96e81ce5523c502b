import ManifestBump.Notation.Toml
import ManifestBump.Proofs.Document

/-! Documents read from TOML are ordered.

While a text is read, the members of its tables stand in the order of the text, so only the values in them are ordered
(`Sound`). That is kept by all that keys and headers do, and the document made of such tables is ordered. -/
namespace ManifestBump.Notation.Toml
open Document (Ordered ordered_tableOf ordered_empty ordered_single mem_of_lookup)

/-! ### Tables under construction -/

/-- All values in a node are ordered. -/
inductive Node.Sound : Node → Prop where
  | value {d : Document} (h : Ordered d) : Sound (.value d)
  | table (origin : Origin) {members : Members} (h : ∀ m ∈ members, Sound m.2) : Sound (.table origin members)
  | tables {closed : List Members} {last : Members} (hclosed : ∀ members ∈ closed, ∀ m ∈ members, Sound m.2)
      (hlast : ∀ m ∈ last, Sound m.2) : Sound (.tables closed last)

/-- All values in some members are ordered. -/
def Members.Sound (members : Members) : Prop := ∀ m ∈ members, m.2.Sound

/-- An edit that keeps values ordered. -/
def Keeps (edit : Members → Option Members) : Prop :=
  ∀ {members members' : Members}, members.Sound → edit members = some members' → members'.Sound

section Members
variable {members members' : Members} {key : String} {node : Node} {value : Document}

theorem Members.sound_nil : Members.Sound [] := List.forall_mem_nil _

theorem Members.Sound.append (h : members.Sound) (hnode : node.Sound) (key : String) :
    Members.Sound (members ++ [(key, node)]) :=
  List.forall_mem_append.mpr ⟨h, List.forall_mem_singleton.mpr hnode⟩

theorem Members.Sound.lookup (h : members.Sound) (hnode : members.lookup key = some node) : node.Sound :=
  h _ (mem_of_lookup hnode)

theorem Members.Sound.put (h : members.Sound) (hnode : node.Sound) (key : String) :
    Members.Sound (Members.put key node members) := by
  induction members with
  | nil => exact List.forall_mem_singleton.mpr hnode
  | cons m members ih =>
    obtain ⟨hm, hmembers⟩ := List.forall_mem_cons.mp h
    rw [Members.put]
    split
    · exact List.forall_mem_cons.mpr ⟨hnode, hmembers⟩
    · exact List.forall_mem_cons.mpr ⟨hm, ih hmembers⟩

/-- What an edit keeps at the end of a way, it keeps seen from its start. -/
theorem keeps_change {edit : Origin → Members → Option Members} (hedit : ∀ origin, Keeps (edit origin)) (fresh : Origin)
    (keys : List String) (origin : Origin) : Keeps (Members.change fresh edit keys origin) := by
  induction keys generalizing origin with
  | nil => exact hedit origin
  | cons key keys ih =>
    intro members members' hmembers h
    rw [Members.change] at h
    split at h
    · obtain ⟨inner, hinner, rfl⟩ := Option.map_eq_some_iff.mp h
      exact hmembers.put (.table fresh (ih fresh Members.sound_nil hinner)) key
    · cases h
    next origin' inner' hlookup =>
      split at h
      · cases h
      · obtain ⟨inner, hinner, rfl⟩ := Option.map_eq_some_iff.mp h
        have hold := hmembers.lookup hlookup
        cases hold with
        | table _ hold => exact hmembers.put (.table origin' (ih origin' hold hinner)) key
    next closed last' hlookup =>
      obtain ⟨last, hlast, rfl⟩ := Option.map_eq_some_iff.mp h
      have hold := hmembers.lookup hlookup
      cases hold with
      | tables hclosed hold => exact hmembers.put (.tables hclosed (ih .stated hold hlast)) key

theorem keeps_assign (keys : List String) (hvalue : Ordered value) (origin : Origin) :
    Keeps (Members.assign keys value origin) := by
  intro members members' hmembers h
  rw [Members.assign] at h
  split at h
  · cases h
  next leaf _ =>
    refine keeps_change (fun origin => ?_) .dotted keys.dropLast origin hmembers h
    intro inner inner' hinner h
    dsimp only at h
    split at h
    · cases h
    split at h
    · cases h
    · cases h
      exact hinner.append (.value hvalue) leaf

theorem keeps_openTable (header : List String) : Keeps (Members.openTable header) := by
  intro members members' hmembers h
  rw [Members.openTable] at h
  split at h
  · cases h
  next leaf _ =>
    refine keeps_change (fun _ => ?_) .passing header.dropLast .stated hmembers h
    intro inner inner' hinner h
    dsimp only at h
    split at h
    · cases h
      exact hinner.append (.table .stated Members.sound_nil) leaf
    next known hlookup =>
      cases h
      have hknown := hinner.lookup hlookup
      cases hknown with
      | table _ hknown => exact hinner.put (.table .stated hknown) leaf
    · cases h

theorem keeps_openElement (header : List String) : Keeps (Members.openElement header) := by
  intro members members' hmembers h
  rw [Members.openElement] at h
  split at h
  · cases h
  next leaf _ =>
    refine keeps_change (fun _ => ?_) .passing header.dropLast .stated hmembers h
    intro inner inner' hinner h
    dsimp only at h
    split at h
    · cases h
      exact hinner.append (.tables (List.forall_mem_nil _) Members.sound_nil) leaf
    next closed last hlookup =>
      cases h
      have hold := hinner.lookup hlookup
      cases hold with
      | tables hclosed hlast =>
        exact hinner.put (.tables (List.forall_mem_append.mpr ⟨hclosed, List.forall_mem_singleton.mpr hlast⟩)
          Members.sound_nil) leaf
    · cases h

/-! ### Documents of tables -/

theorem ordered_membersDocument (h : ∀ m ∈ members, Ordered m.2.document) : ∀ m ∈ membersDocument members, Ordered m.2 := by
  induction members with
  | nil => exact List.forall_mem_nil _
  | cons m members ih =>
    obtain ⟨hm, hmembers⟩ := List.forall_mem_cons.mp h
    exact List.forall_mem_cons.mpr ⟨hm, ih hmembers⟩

theorem ordered_tablesDocument {closed : List Members} (h : ∀ members ∈ closed, ∀ m ∈ members, Ordered m.2.document) :
    ∀ d ∈ tablesDocument closed, Ordered d := by
  induction closed with
  | nil => exact List.forall_mem_nil _
  | cons members closed ih =>
    obtain ⟨hmembers, hclosed⟩ := List.forall_mem_cons.mp h
    exact List.forall_mem_cons.mpr ⟨ordered_tableOf (ordered_membersDocument hmembers), ih hclosed⟩

theorem Node.Sound.document (h : node.Sound) : Ordered node.document := by
  induction h with
  | value h => exact h
  | table origin _ ih =>
    rw [Node.document]
    exact ordered_tableOf (ordered_membersDocument ih)
  | tables _ _ ihclosed ihlast =>
    rw [Node.document]
    exact .list (List.forall_mem_append.mpr ⟨ordered_tablesDocument ihclosed,
      List.forall_mem_singleton.mpr (ordered_tableOf (ordered_membersDocument ihlast))⟩)

/-- The table made of members whose values are ordered. -/
theorem Members.Sound.table (h : members.Sound) : Ordered (Document.tableOf (membersDocument members)) :=
  ordered_tableOf (ordered_membersDocument fun m hm => (h m hm).document)

end Members

/-! ### Values -/

theorem ordered_bare? {text rest : List Char} {d : Document} (h : bare? text = some (d, rest)) : Ordered d := by
  rw [bare?] at h
  split at h
  · cases h
    exact ordered_single "date" (.text _)
  · dsimp only at h
    split at h
    · cases h
      exact .bool true
    split at h
    · cases h
      exact .bool false
    split at h
    · cases h
      exact .number
    · cases h

/-- What is read in a number of steps is ordered. -/
structure ReadsOrdered (bound : Nat) : Prop where
  value {depth : Nat} {text rest : List Char} {d : Document} (h : valueWithin bound depth text = some (d, rest)) : Ordered d
  items {depth : Nat} {text rest : List Char} {ds : List Document} (h : itemsWithin bound depth text = some (ds, rest)) :
    ∀ d ∈ ds, Ordered d
  pairs {depth : Nat} {members members' : Members} {text rest : List Char} (hmembers : members.Sound)
    (h : pairsWithin bound depth members text = some (members', rest)) : members'.Sound

theorem ReadsOrdered.step_value {bound depth : Nat} (ih : ReadsOrdered bound) {text rest : List Char} {d : Document}
    (h : valueWithin (bound + 1) depth text = some (d, rest)) : Ordered d := by
  rw [valueWithin.eq_def] at h
  dsimp only at h
  split at h
  · obtain ⟨_, -, hd⟩ := Option.map_eq_some_iff.mp h
    cases hd
    exact .text _
  · obtain ⟨_, -, hd⟩ := Option.map_eq_some_iff.mp h
    cases hd
    exact .text _
  · cases depth with
    | zero => cases h
    | succ depth =>
      obtain ⟨_, hitems, hd⟩ := Option.map_eq_some_iff.mp h
      cases hd
      exact .list (ih.items hitems)
  · cases depth with
    | zero => cases h
    | succ depth =>
      dsimp only at h
      split at h
      · cases h
        exact ordered_empty
      · obtain ⟨_, hpairs, hd⟩ := Option.map_eq_some_iff.mp h
        cases hd
        exact (ih.pairs Members.sound_nil hpairs).table
  · exact ordered_bare? h

theorem ReadsOrdered.step_items {bound depth : Nat} (ih : ReadsOrdered bound) {text rest : List Char}
    {ds : List Document} (h : itemsWithin (bound + 1) depth text = some (ds, rest)) : ∀ d ∈ ds, Ordered d := by
  rw [itemsWithin.eq_def] at h
  dsimp only at h
  split at h
  · cases h
    exact List.forall_mem_nil _
  · split at h
    · cases h
    next d rest' hvalue =>
      split at h
      · obtain ⟨_, hitems, hds⟩ := Option.map_eq_some_iff.mp h
        cases hds
        exact List.forall_mem_cons.mpr ⟨ih.value hvalue, ih.items hitems⟩
      · cases h
        exact List.forall_mem_singleton.mpr (ih.value hvalue)
      · cases h

theorem ReadsOrdered.step_pairs {bound depth : Nat} (ih : ReadsOrdered bound) {members members' : Members}
    {text rest : List Char} (hmembers : members.Sound)
    (h : pairsWithin (bound + 1) depth members text = some (members', rest)) : members'.Sound := by
  rw [pairsWithin.eq_def] at h
  dsimp only at h
  split at h
  next keys rest' _ =>
    split at h
    · cases h
    next d rest' hvalue =>
      split at h
      · cases h
      next members' hassign =>
        have hsound := keeps_assign keys (ih.value hvalue) .stated hmembers hassign
        split at h
        · exact ih.pairs hsound h
        · cases h
          exact hsound
        · cases h
  · cases h

theorem readsOrdered (bound : Nat) : ReadsOrdered bound := by
  induction bound with
  | zero => constructor <;> nofun
  | succ bound ih => exact ⟨ih.step_value, ih.step_items, ih.step_pairs⟩

/-! ### Texts -/

theorem sound_statement {s s' : State} (hs : s.root.Sound) {text rest : List Char}
    (h : statement? s text = some (s', rest)) : s'.root.Sound := by
  rw [statement?.eq_def] at h
  split at h
  · obtain ⟨⟨keys, _⟩, -, h⟩ := Option.bind_eq_some_iff.mp h
    obtain ⟨root, hroot, h⟩ := Option.bind_eq_some_iff.mp h
    cases h
    exact keeps_openElement keys hs hroot
  · obtain ⟨⟨keys, _⟩, -, h⟩ := Option.bind_eq_some_iff.mp h
    obtain ⟨root, hroot, h⟩ := Option.bind_eq_some_iff.mp h
    cases h
    exact keeps_openTable keys hs hroot
  · obtain ⟨⟨keys, _⟩, -, h⟩ := Option.bind_eq_some_iff.mp h
    obtain ⟨_, -, h⟩ := Option.bind_eq_some_iff.mp h
    obtain ⟨⟨value, _⟩, hvalue, h⟩ := Option.bind_eq_some_iff.mp h
    obtain ⟨_, -, h⟩ := Option.bind_eq_some_iff.mp h
    obtain ⟨root, hroot, h⟩ := Option.bind_eq_some_iff.mp h
    cases h
    exact keeps_change (keeps_assign keys ((readsOrdered _).value hvalue)) .passing s.header .stated hs hroot

theorem sound_statementsWithin {bound : Nat} {s s' : State} (hs : s.root.Sound) {text : List Char}
    (h : statementsWithin bound s text = some s') : s'.root.Sound := by
  induction bound generalizing s text with
  | zero =>
    rw [statementsWithin] at h
    split at h
    · exact Option.some.inj h ▸ hs
    · cases h
  | succ bound ih =>
    rw [statementsWithin.eq_def] at h
    dsimp only at h
    split at h
    · exact Option.some.inj h ▸ hs
    · split at h
      · exact ih hs h
      · obtain ⟨⟨s, _⟩, hstatement, h⟩ := Option.bind_eq_some_iff.mp h
        exact ih (sound_statement hs hstatement) h

/-- **A document read from TOML is ordered.** -/
theorem ordered_parse? {text : List Char} {d : Document} (h : parse? text = some d) : Ordered d := by
  obtain ⟨s, hs, rfl⟩ := Option.map_eq_some_iff.mp h
  exact (sound_statementsWithin Members.sound_nil hs).table

end ManifestBump.Notation.Toml

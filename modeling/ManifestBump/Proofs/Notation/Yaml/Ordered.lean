import ManifestBump.Notation.Yaml
import ManifestBump.Proofs.Document

/-! Documents read from YAML are ordered.

An alias stands for what has been read before, so all that readers hand on is looked at together: what they yield and the
anchors known behind it (`Yields`). -/
namespace ManifestBump.Notation.Yaml
open Document (Ordered ordered_tableOf ordered_empty ordered_single mem_of_lookup)

/-! ### Nodes and anchors -/

/-- What a node means is ordered. -/
def Node.Sound : Node → Prop
  | .scalar _ => True
  | .collection _ d => Ordered d

/-- All nodes that aliases may stand for are ordered. -/
def Anchors.Sound (anchors : Anchors) : Prop := ∀ a ∈ anchors, a.2.Sound

/-- What a reader yields has a property, if it yields anything, and the anchors known then are ordered. -/
inductive Yields {α : Type} (P : α → Prop) : Option (α × Anchors × Place) → Prop where
  | none : Yields P none
  | some {a : α} {anchors : Anchors} (ha : P a) (hanchors : anchors.Sound) (q : Place) : Yields P (some (a, anchors, q))

section Yields
variable {α β : Type} {P : α → Prop} {Q : β → Prop} {anchors : Anchors} {found : Option (α × Anchors × Place)}

theorem Yields.sound (h : Yields P found) {a : α} {q : Place} (hfound : found = Option.some (a, anchors, q)) :
    P a ∧ anchors.Sound := by
  cases h with
  | none => cases hfound
  | some ha hanchors q =>
    cases hfound
    exact ⟨ha, hanchors⟩

theorem Yields.map (h : Yields P found) {f : α → β} (hf : ∀ a, P a → Q (f a)) :
    Yields Q (found.map fun (a, anchors, q) => (f a, anchors, q)) := by
  cases h with
  | none => exact .none
  | some ha hanchors q => exact .some (hf _ ha) hanchors q

theorem yields_bind {x : Option β} {f : β → Option (α × Anchors × Place)} (h : ∀ b, x = Option.some b → Yields P (f b)) :
    Yields P (x.bind f) := by
  cases x with
  | none => exact .none
  | some b => exact h b rfl

theorem Yields.forward (h : Yields P found) (next : Place → Option Place) :
    Yields P (found.bind fun (a, anchors, q) => (next q).bind fun q => Option.some (a, anchors, q)) := by
  cases h with
  | none => exact .none
  | some ha hanchors q => exact yields_bind (x := next q) fun q' _ => .some ha hanchors q'

end Yields

section Notes
variable {anchors : Anchors} {node : Node} {d : Document}

theorem Anchors.sound_nil : Anchors.Sound [] := List.forall_mem_nil _

theorem Anchors.Sound.forget (h : anchors.Sound) (props : Properties) : (anchors.forget props).Sound :=
  fun a ha => h a (List.mem_of_mem_filter ha)

theorem Anchors.Sound.note (h : anchors.Sound) (hnode : node.Sound) (props : Properties) :
    (anchors.note props node).Sound := by
  rw [Anchors.note]
  split
  · exact List.forall_mem_cons.mpr ⟨hnode, fun a ha => h a (List.mem_of_mem_filter ha)⟩
  · exact h

theorem yields_noteScalar (h : anchors.Sound) (props : Properties) (plain : Bool) (text : List Char) (p : Place) :
    Yields Node.Sound (noteScalar anchors props plain text p) :=
  have hnode : Node.Sound (.scalar ⟨String.ofList text, plain, props.tag⟩) := trivial
  .some hnode (h.note hnode props) p

theorem yields_noteCollection (h : anchors.Sound) (hd : Ordered d) (props : Properties) (p : Place) :
    Yields Node.Sound (noteCollection anchors props d p) :=
  have hnode : Node.Sound (.collection props.tag d) := hd
  .some hnode (h.note hnode props) p

theorem ordered_plainDocument (text : String) : Ordered (Scalar.plainDocument text) := by
  rw [Scalar.plainDocument]
  split
  · exact .null
  split
  · exact .bool _
  split
  · exact .number
  · exact .text text

theorem ordered_scalar {s : Scalar} (h : s.document? = some d) : Ordered d := by
  rw [Scalar.document?] at h
  split at h
  · cases h
    split
    · exact ordered_plainDocument s.text
    · exact .text s.text
  split at h
  · cases h
  split at h
  · obtain ⟨b, -, rfl⟩ := Option.map_eq_some_iff.mp h
    exact .bool b
  -- All other shared tags have one meaning, if the text fits.
  repeat'
    split at h
  all_goals cases h
  all_goals constructor

theorem Node.Sound.document? (h : node.Sound) (hd : node.document? = some d) : Ordered d := by
  cases node with
  | scalar s => exact ordered_scalar hd
  | collection tag d' =>
    rw [Node.document?.eq_def] at hd
    cases tag with
    | none => exact Option.some.inj hd ▸ h
    | some tag =>
      dsimp only at hd
      split at hd
      · cases hd
      · exact Option.some.inj hd ▸ h

/-- What a node that has been read means, wherever it is put. -/
theorem yields_document {α : Type} {P : α → Prop} {f : Document → α} (hnode : node.Sound) (h : anchors.Sound) (q : Place)
    (hf : ∀ d, Ordered d → P (f d)) : Yields P (node.document?.map fun d => (f d, anchors, q)) := by
  cases hd : node.document? with
  | none => exact .none
  | some d => exact .some (hf d (hnode.document? hd)) h q

end Notes

/-! ### Within brackets -/

/-- What is read within brackets in a number of steps is ordered. -/
structure FlowOrdered (bound : Nat) : Prop where
  node {anchors : Anchors} (h : anchors.Sound) (depth : Nat) (p : Place) : Yields Node.Sound (flowNode bound depth anchors p)
  content {anchors : Anchors} (h : anchors.Sound) (depth : Nat) (props : Properties) (p : Place) :
    Yields Node.Sound (flowContent bound depth anchors props p)
  items {anchors : Anchors} (h : anchors.Sound) (depth : Nat) (p : Place) :
    Yields (∀ d ∈ ·, Ordered d) (flowItems bound depth anchors p)
  item {anchors : Anchors} (h : anchors.Sound) (depth : Nat) (p : Place) : Yields Ordered (flowItem bound depth anchors p)
  value {anchors : Anchors} (h : anchors.Sound) (depth : Nat) (p : Place) : Yields Ordered (flowValue bound depth anchors p)
  explicit {anchors : Anchors} (h : anchors.Sound) (depth : Nat) (p : Place) :
    Yields (fun m => Ordered m.2) (flowExplicit bound depth anchors p)
  member {anchors : Anchors} (h : anchors.Sound) (depth : Nat) (p : Place) :
    Yields (fun m => Ordered m.2) (flowMember bound depth anchors p)
  members {anchors : Anchors} (h : anchors.Sound) (depth : Nat) (p : Place) :
    Yields (∀ m ∈ ·, Ordered m.2) (flowMembers bound depth anchors p)

section Flow
variable {bound : Nat} {anchors : Anchors}

theorem FlowOrdered.step_node (ih : FlowOrdered bound) (h : anchors.Sound) (depth : Nat) (p : Place) :
    Yields Node.Sound (flowNode (bound + 1) depth anchors p) := by
  rw [flowNode]
  split
  · exact .none
  split
  · exact .none
  split
  · split
    · exact yields_noteScalar h _ _ _ _
    · exact ih.content (h.forget _) _ _ _
  · exact .none

theorem FlowOrdered.step_content (ih : FlowOrdered bound) (h : anchors.Sound) (depth : Nat) (props : Properties) (p : Place) :
    Yields Node.Sound (flowContent (bound + 1) depth anchors props p) := by
  rw [flowContent.eq_def]
  dsimp only
  split
  · split
    · exact .none
    split
    · exact .none
    next name q _ =>
      cases hlookup : anchors.lookup name with
      | none => exact .none
      | some node => exact .some (h _ (mem_of_lookup hlookup)) h q
  · split
    next items known q hitems =>
      obtain ⟨hordered, hknown⟩ := (ih.items h _ _).sound hitems
      exact yields_noteCollection hknown (.list hordered) props q
    · exact .none
  · split
    next members known q hmembers =>
      obtain ⟨hordered, hknown⟩ := (ih.members h _ _).sound hmembers
      exact yields_noteCollection hknown (ordered_tableOf hordered) props q
    · exact .none
  · split
    · exact yields_noteScalar h _ _ _ _
    · exact .none
  · split
    · exact yields_noteScalar h _ _ _ _
    · exact .none
  · split
    · split
      · exact yields_noteScalar h _ _ _ _
      · exact .none
    · exact .none

theorem FlowOrdered.step_items (ih : FlowOrdered bound) (h : anchors.Sound) (depth : Nat) (p : Place) :
    Yields (∀ d ∈ ·, Ordered d) (flowItems (bound + 1) depth anchors p) := by
  rw [flowItems]
  split
  · exact .some (List.forall_mem_nil _) h _
  split
  · exact .none
  next d known q hitem =>
    obtain ⟨hd, hknown⟩ := (ih.item h _ _).sound hitem
    dsimp only
    split
    · exact (ih.items hknown _ _).map fun ds hds => List.forall_mem_cons.mpr ⟨hd, hds⟩
    · exact .some (List.forall_mem_singleton.mpr hd) hknown _
    · exact .none

theorem FlowOrdered.step_item (ih : FlowOrdered bound) (h : anchors.Sound) (depth : Nat) (p : Place) :
    Yields Ordered (flowItem (bound + 1) depth anchors p) := by
  rw [flowItem.eq_def]
  dsimp only
  split
  · split
    · exact .none
    · exact (ih.explicit h _ _).map fun m hm => ordered_single m.1 hm
  · split
    · exact .none
    next node known q hnode =>
      obtain ⟨hsound, hknown⟩ := (ih.node h _ _).sound hnode
      split
      · exact yields_document hsound hknown q fun _ hd => hd
      · exact .none
      · split
        next hvalue =>
          obtain ⟨hd, hknown'⟩ := (ih.value hknown _ _).sound hvalue
          exact .some (ordered_single _ hd) hknown' _
        · exact .none

theorem FlowOrdered.step_value (ih : FlowOrdered bound) (h : anchors.Sound) (depth : Nat) (p : Place) :
    Yields Ordered (flowValue (bound + 1) depth anchors p) := by
  rw [flowValue]
  split
  · exact .some .null h p
  · exact .some .null h p
  · exact .some .null h p
  · split
    next hnode =>
      obtain ⟨hsound, hknown⟩ := (ih.node h _ _).sound hnode
      exact yields_document hsound hknown _ fun _ hd => hd
    · exact .none

theorem FlowOrdered.step_explicit (ih : FlowOrdered bound) (h : anchors.Sound) (depth : Nat) (p : Place) :
    Yields (fun m => Ordered m.2) (flowExplicit (bound + 1) depth anchors p) := by
  rw [flowExplicit]
  dsimp only
  split
  · exact .none
  next node known q hnode =>
    have hknown : known.Sound := by
      split at hnode
      iterate 4
        · cases hnode
          exact h
      · exact ((ih.node h _ _).sound hnode).2
    split
    · exact .none
    · exact (ih.value hknown _ _).map fun d hd => hd
    · exact .some .null hknown _

theorem FlowOrdered.step_member (ih : FlowOrdered bound) (h : anchors.Sound) (depth : Nat) (p : Place) :
    Yields (fun m => Ordered m.2) (flowMember (bound + 1) depth anchors p) := by
  rw [flowMember]
  split
  · exact ih.explicit h _ _
  split
  · exact .none
  next node known q hnode =>
    have hknown := ((ih.node h _ _).sound hnode).2
    split
    · exact .none
    · exact (ih.value hknown _ _).map fun d hd => hd
    · exact .some .null hknown q

theorem FlowOrdered.step_members (ih : FlowOrdered bound) (h : anchors.Sound) (depth : Nat) (p : Place) :
    Yields (∀ m ∈ ·, Ordered m.2) (flowMembers (bound + 1) depth anchors p) := by
  rw [flowMembers]
  split
  · exact .some (List.forall_mem_nil _) h _
  split
  · exact .none
  next m known q hmember =>
    obtain ⟨hm, hknown⟩ := (ih.member h _ _).sound hmember
    dsimp only
    split
    · exact (ih.members hknown _ _).map fun ms hms => List.forall_mem_cons.mpr ⟨hm, hms⟩
    · have hms : ∀ m' ∈ [m], Ordered m'.2 := List.forall_mem_singleton.mpr hm
      exact .some hms hknown _
    · exact .none

theorem flowOrdered (bound : Nat) : FlowOrdered bound := by
  induction bound with
  | zero =>
    constructor <;> intros <;>
      simp only [flowNode, flowContent, flowItems, flowItem, flowValue, flowExplicit, flowMember, flowMembers] <;>
      exact .none
  | succ bound ih =>
    exact ⟨ih.step_node, ih.step_content, ih.step_items, ih.step_item, ih.step_value, ih.step_explicit, ih.step_member,
      ih.step_members⟩

end Flow

/-! ### Outside of brackets -/

theorem yields_leafContent {anchors : Anchors} (h : anchors.Sound) (depth least : Nat) (props : Properties) (p : Place) :
    Yields Node.Sound (leafContent depth least anchors props p) := by
  rw [leafContent.eq_def]
  split
  · split
    · exact yields_noteScalar h _ _ _ _
    · exact .none
  · split
    · exact yields_noteScalar h _ _ _ _
    · exact .none
  · split
    · split
      · exact yields_noteScalar h _ _ _ _
      · exact .none
    · split
      · exact .none
      · exact (flowOrdered _).content h _ _ _

theorem yields_implicitKey? {anchors : Anchors} (h : anchors.Sound) (depth least : Nat) (p : Place) :
    Yields Node.Sound (implicitKey? depth least anchors p) := by
  rw [implicitKey?]
  refine yields_bind fun _ _ => yields_bind fun (props, q) _ => yields_bind fun _ _ => ?_
  dsimp only
  split
  · exact (yields_noteScalar (h.forget props) _ _ _ _).forward fun q => behindColon? false p (skipGap false q)
  · exact (yields_leafContent (h.forget props) _ _ _ _).forward fun q => behindColon? false p (skipGap false q)

/-- What is read outside of brackets in a number of steps is ordered. -/
structure BlockOrdered (bound : Nat) : Prop where
  node {anchors : Anchors} (h : anchors.Sound) (depth least : Nat) (dashed : Bool) (p : Place) :
    Yields Node.Sound (blockNode bound depth least dashed anchors p)
  collection {anchors : Anchors} (h : anchors.Sound) (depth least : Nat) (dashed : Bool) (props : Properties) (p : Place) :
    ∀ found, blockCollection bound depth least dashed anchors props p = some found → Yields Node.Sound found
  entries {anchors : Anchors} (h : anchors.Sound) (depth column : Nat) (shared : Bool) (p : Place) :
    Yields (∀ d ∈ ·, Ordered d) (blockEntries bound depth column shared anchors p)
  members {anchors : Anchors} (h : anchors.Sound) (depth column : Nat) (p : Place) :
    Yields (∀ m ∈ ·, Ordered m.2) (blockMembers bound depth column anchors p)
  member {anchors : Anchors} (h : anchors.Sound) (depth column : Nat) (p : Place) :
    Yields (fun m => Ordered m.2) (blockMember bound depth column anchors p)

section Block
variable {bound : Nat} {anchors : Anchors}

theorem BlockOrdered.step_node (ih : BlockOrdered bound) (h : anchors.Sound) (depth least : Nat) (dashed : Bool)
    (p : Place) : Yields Node.Sound (blockNode (bound + 1) depth least dashed anchors p) := by
  rw [blockNode]
  split
  next found hfound => exact ih.collection h _ _ _ _ _ found hfound
  · split
    · exact .none
    next props q _ =>
      split
      · exact yields_leafContent h _ _ _ _
      · dsimp only
        split
        next found hfound => exact ih.collection (h.forget props) _ _ _ _ _ found hfound
        · exact yields_leafContent (h.forget props) _ _ _ _

theorem BlockOrdered.step_collection (ih : BlockOrdered bound) (h : anchors.Sound) (depth least : Nat) (dashed : Bool)
    (props : Properties) (p : Place) (found : Found)
    (hfound : blockCollection (bound + 1) depth least dashed anchors props p = some found) : Yields Node.Sound found := by
  rw [blockCollection.eq_def] at hfound
  dsimp only at hfound
  split at hfound
  · exact Option.some.inj hfound ▸ yields_noteScalar h _ _ _ _
  split at hfound
  · exact Option.some.inj hfound ▸ yields_noteScalar h _ _ _ _
  split at hfound
  · split at hfound
    · rw [← Option.some.inj hfound]
      split
      next items known q hitems =>
        obtain ⟨hordered, hknown⟩ := (ih.entries h _ _ _ _).sound hitems
        exact yields_noteCollection hknown (.list hordered) props q
      · exact .none
    · exact Option.some.inj hfound ▸ .none
  split at hfound
  · split at hfound
    · rw [← Option.some.inj hfound]
      split
      next members known q hmembers =>
        obtain ⟨hordered, hknown⟩ := (ih.members h _ _ _).sound hmembers
        exact yields_noteCollection hknown (ordered_tableOf hordered) props q
      · exact .none
    · exact Option.some.inj hfound ▸ .none
  · cases hfound

theorem BlockOrdered.step_entries (ih : BlockOrdered bound) (h : anchors.Sound) (depth column : Nat) (shared : Bool)
    (p : Place) : Yields (∀ d ∈ ·, Ordered d) (blockEntries (bound + 1) depth column shared anchors p) := by
  rw [blockEntries]
  split
  · exact .some (List.forall_mem_nil _) h p
  split
  · split
    · exact .none
    next node known q hnode =>
      obtain ⟨hsound, hknown⟩ := (ih.node h _ _ _ _).sound hnode
      split
      next d ds known' q' hd hentries =>
        obtain ⟨hds, hknown'⟩ := (ih.entries hknown _ _ _ _).sound hentries
        exact .some (List.forall_mem_cons.mpr ⟨hsound.document? hd, hds⟩) hknown' q'
      · exact .none
  split
  · exact .some (List.forall_mem_nil _) h p
  · exact .none

theorem BlockOrdered.step_members (ih : BlockOrdered bound) (h : anchors.Sound) (depth column : Nat) (p : Place) :
    Yields (∀ m ∈ ·, Ordered m.2) (blockMembers (bound + 1) depth column anchors p) := by
  rw [blockMembers]
  split
  · exact .some (List.forall_mem_nil _) h p
  split
  · exact .none
  split
  · exact .none
  next m known q hmember =>
    obtain ⟨hm, hknown⟩ := (ih.member h _ _ _).sound hmember
    exact (ih.members hknown _ _ _).map fun ms hms => List.forall_mem_cons.mpr ⟨hm, hms⟩

theorem BlockOrdered.step_member (ih : BlockOrdered bound) (h : anchors.Sound) (depth column : Nat) (p : Place) :
    Yields (fun m => Ordered m.2) (blockMember (bound + 1) depth column anchors p) := by
  unfold blockMember
  extract_lets value
  have hvalue : ∀ (key : String) {known : Anchors} (_ : known.Sound) (q : Place),
      Yields (fun m => Ordered m.2) (value key known q) := by
    intro key known hknown q
    simp only [value]
    split
    · exact .none
    next node known' q' hnode =>
      obtain ⟨hsound, hknown'⟩ := (ih.node hknown _ _ _ _).sound hnode
      exact yields_document hsound hknown' q' fun _ hd => hd
  split
  · split
    · exact .none
    next node known q hnode =>
      have hknown := ((ih.node h _ _ _ _).sound hnode).2
      dsimp only
      split
      · exact .none
      · split
        · exact hvalue _ hknown _
        · exact .some .null hknown _
  · split
    · exact .none
    next node known q hkey =>
      have hknown := ((yields_implicitKey? h _ _ _).sound hkey).2
      split
      · exact .none
      · exact hvalue _ hknown _

theorem blockOrdered (bound : Nat) : BlockOrdered bound := by
  induction bound with
  | zero =>
    constructor
    · intros
      rw [blockNode]
      exact .none
    · intro _ _ _ _ _ _ _ found hfound
      rw [blockCollection] at hfound
      exact Option.some.inj hfound ▸ .none
    all_goals intros
    · rw [blockEntries]
      exact .none
    · rw [blockMembers]
      exact .none
    · rw [blockMember]
      exact .none
  | succ bound ih =>
    exact ⟨ih.step_node, ih.step_collection, ih.step_entries, ih.step_members, ih.step_member⟩

end Block

/-! ### Texts -/

theorem sound_root? {text : List Char} {node : Node} (h : root? text = some node) : node.Sound := by
  rw [root?] at h
  obtain ⟨⟨directed, p⟩, -, h⟩ := Option.bind_eq_some_iff.mp h
  obtain ⟨_, -, h⟩ := Option.bind_eq_some_iff.mp h
  obtain ⟨⟨node', known, q⟩, hnode, h⟩ := Option.bind_eq_some_iff.mp h
  obtain ⟨_, -, h⟩ := Option.bind_eq_some_iff.mp h
  cases h
  exact (((blockOrdered _).node Anchors.sound_nil _ _ _ _).sound hnode).1

/-- **A document read from YAML is ordered.** -/
theorem ordered_parse? {text : List Char} {d : Document} (h : parse? text = some d) : Ordered d := by
  rw [parse?] at h
  obtain ⟨_, -, h⟩ := Option.bind_eq_some_iff.mp h
  obtain ⟨node, hnode, h⟩ := Option.bind_eq_some_iff.mp h
  have hsound := sound_root? hnode
  split at h
  · cases h
    exact hsound
  · cases h
  · split at h
    · cases h
      exact ordered_empty
    · cases h

end ManifestBump.Notation.Yaml

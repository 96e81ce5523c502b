import ManifestBump.Notation.Json.Record
import ManifestBump.Proofs.Notation.Json.Skip

/-! Records are read whatever their layout.

An object is written as members in any order, with space around everything and names in any spelling. Members of known
names hold what they should, each of them once, and all others may be any (`IsObject`). If fields are read from what
members hold, the record is read from the object, and what stands behind it is left (`reads_record`). -/
namespace ManifestBump.Notation.Json
open Text
open ManifestBump.Json (Space Strict Bracket keyText)

/-! ### Layouts -/

/-- What stands behind an entry: others, each behind a comma, and the closing bracket. -/
def behindEntry (bracket : Bracket) : List (List Char) → List Char
  | [] => [bracket.closing]
  | entry :: entries => ',' :: (entry ++ behindEntry bracket entries)

/-- Entries in brackets. Without entries, there may be space between the brackets. -/
def inBrackets (bracket : Bracket) (space : Space) : List (List Char) → List Char
  | [] => bracket.opening :: (space.text ++ [bracket.closing])
  | entry :: entries => bracket.opening :: (entry ++ behindEntry bracket entries)

/-- A member as it is written. -/
structure Member where
  before : Space
  name : String
  spelled : List Char
  gap : Space
  gap' : Space
  value : List Char
  behind : Space
  spells : Spells name.toList spelled

/-- The text of a member. -/
def Member.text (m : Member) : List Char :=
  m.before.text ++ (keyText m.spelled m.gap m.gap' ++ m.value) ++ m.behind.text

/-- An item as it is written. -/
structure Item where
  before : Space
  value : List Char
  behind : Space

/-- The text of an item. -/
def Item.text (i : Item) : List Char := i.before.text ++ i.value ++ i.behind.text

/-- A string that says a text. -/
def IsString (s : String) (text : List Char) : Prop :=
  ∃ spelled, Spells s.toList spelled ∧ text = '"' :: (spelled ++ ['"'])

/-- A list whose items say the elements of another list, in order. -/
def IsList {α : Type} (holds : α → List Char → Prop) (xs : List α) (text : List Char) : Prop :=
  ∃ (space : Space) (items : List Item), text = inBrackets .array space (items.map Item.text) ∧
    List.Forall₂ (fun x item => holds x item.value) xs items

/-- An object, by what members of known names hold. The members of given names are there once, in any order, and those of
other known names are not. All other members hold any value. -/
def IsObject (known : List (String × (List Char → Prop))) (given : List String) (text : List Char) : Prop :=
  ∃ (space : Space) (members : List Member), text = inBrackets .object space (members.map Member.text) ∧
    ((members.map Member.name).filter fun name => (known.lookup name).isSome).Perm given ∧
    ∀ m ∈ members, (known.lookup m.name).getD (Strict .value) m.value

/-! ### Reading -/

/-- What a text says to a reader, whatever stands in front of it and behind it. -/
def Reads {α : Type} (read : Reader α) (text : List Char) (x : α) : Prop :=
  ∀ (space : Space) (rest : List Char), Stops isMore rest → read (space.text ++ (text ++ rest)) = .ok (x, rest)

theorem reads_string {s : String} {text : List Char} (h : IsString s text) : Reads readString text s := by
  intro space rest _
  obtain ⟨spelled, hspelled, rfl⟩ := h
  rw [readString, skipSpace_append, List.cons_append, List.append_assoc]
  exact string_of_spells hspelled rest

theorem reads_whole (n : UInt64) : Reads readWhole (Nat.toDigits 10 n.toNat) n := by
  intro space rest hrest
  have hnumber := number_toDigits n hrest
  have hnumeral := numeral_toDigits n.toNat
  obtain ⟨c, more, hdigits⟩ := List.exists_cons_of_ne_nil hnumeral.ne_nil
  have hc : isDigit c = true := by
    rw [isDigit_eq]
    exact hnumeral.isDigit c (by rw [hdigits]; exact List.mem_cons_self)
  have hspace : isSpace c = false := by
    have hheads : ∀ d ∈ numberHeads, isSpace d = false := by simp [numberHeads, isSpace]
    exact hheads c (mem_numberHeads_of_isDigit (by rwa [← isDigit_eq]))
  rw [readWhole, skipSpace_append]
  rw [hdigits, List.cons_append] at hnumber ⊢
  rw [skipSpace_cons hspace]
  simp only [if_pos (Or.inr hc), hnumber]

/-- A field whose value is stored. -/
theorem Reads.store {σ α : Type} {read : Reader α} {text : List Char} {x : α} (h : Reads read text x) (name : String)
    (store : α → σ → σ) (s : σ) : Reads ((Field.of name read store).read s) text (store x s) := by
  intro space rest hrest
  show (read _).map _ = _
  rw [h space rest hrest]
  rfl

/-! ### Lists -/

section Lists
variable {α : Type} {holds : α → List Char → Prop} {read : Reader α}

theorem nextItem?_append (space : Space) (first : Bool) (text : List Char) :
    nextItem? first (space.text ++ text) = nextItem? first text := by
  rw [nextItem?, nextItem?, skipSpace_append]

theorem readItems_append (space : Space) (bound : Nat) (first : Bool) (text : List Char) :
    readItems read bound first (space.text ++ text) = readItems read bound first text := by
  cases bound with
  | zero => rfl
  | succ bound => rw [readItems, readItems, nextItem?_append, endItems, endItems, skipSpace_append]

/-- A text that begins as an item may. -/
def Opens (text : List Char) : Prop := ∃ c more, text = c :: more ∧ isSpace c = false ∧ c ≠ ']'

theorem nextItem?_first {text more : List Char} {c : Char} (h : skipSpace text = c :: more) (hc : c ≠ ']') :
    nextItem? true text = .ok (some (c :: more)) := by
  rw [nextItem?, h]
  simp

theorem nextItem?_comma {text more : List Char} {c : Char} (h : skipSpace text = c :: more) (hc : c ≠ ']') :
    nextItem? false (',' :: text) = .ok (some (c :: more)) := by
  have hcomma : skipSpace (',' :: text) = ',' :: text := rfl
  rw [nextItem?, hcomma]
  simp [h, hc]

/-- An item is there as it stands, also where others are in front of it. -/
theorem nextItem?_opens {text : List Char} (h : Opens text) (space : Space) (rest : List Char) :
    nextItem? true (space.text ++ (text ++ rest)) = .ok (some (text ++ rest)) ∧
      nextItem? false (',' :: (space.text ++ (text ++ rest))) = .ok (some (text ++ rest)) := by
  obtain ⟨c, more, rfl, hspace, hc⟩ := h
  have hskip : skipSpace (space.text ++ (c :: more ++ rest)) = c :: (more ++ rest) := by
    rw [skipSpace_append, List.cons_append, skipSpace_cons hspace]
  exact ⟨nextItem?_first hskip hc, nextItem?_comma hskip hc⟩

theorem readItems_item {x : α} {i : Item} (hread : Reads read i.value x) (hopens : Opens i.value) {more : List Char}
    (hmore : Stops isMore more) (bound : Nat) :
    readItems read (bound + 1) true (i.text ++ more) =
        (readItems read bound false more).map (fun (xs, rest) => (x :: xs, rest)) ∧
      readItems read (bound + 1) false (',' :: (i.text ++ more)) =
        (readItems read bound false more).map (fun (xs, rest) => (x :: xs, rest)) := by
  obtain ⟨hfirst, hlater⟩ := nextItem?_opens hopens i.before (i.behind.text ++ more)
  have hvalue : read (i.value ++ (i.behind.text ++ more)) = .ok (x, i.behind.text ++ more) :=
    hread Json.tight (i.behind.text ++ more) (stops_append i.behind hmore)
  have htext : i.text ++ more = i.before.text ++ (i.value ++ (i.behind.text ++ more)) := by
    simp only [Item.text, List.append_assoc]
  rw [htext]
  constructor
  · rw [readItems, hfirst]
    simp only [hvalue, readItems_append]
  · rw [readItems, hlater]
    simp only [hvalue, readItems_append]

theorem stops_behindEntry (bracket : Bracket) (entries : List (List Char)) (rest : List Char) :
    Stops isMore (behindEntry bracket entries ++ rest) := by
  cases entries with
  | nil => cases bracket <;> exact stops_cons_iff.mpr rfl
  | cons entry entries => exact stops_cons_iff.mpr rfl

theorem readItems_behind (hread : ∀ x text, holds x text → Reads read text x) (hopens : ∀ x text, holds x text → Opens text)
    {xs : List α} {items : List Item} (h : List.Forall₂ (fun x item => holds x item.value) xs items) (rest : List Char)
    {bound : Nat} (hbound : items.length < bound) :
    readItems read bound false (behindEntry .array (items.map Item.text) ++ rest) = .ok (xs, rest) := by
  induction h generalizing bound with
  | nil =>
    obtain ⟨bound, rfl⟩ : ∃ b, bound = b + 1 := ⟨bound - 1, by omega⟩
    rfl
  | @cons x i xs items hx _ ih =>
    obtain ⟨bound, rfl⟩ : ∃ b, bound = b + 1 := ⟨bound - 1, by omega⟩
    rw [List.map_cons, behindEntry, List.cons_append, List.append_assoc,
      (readItems_item (hread x _ hx) (hopens x _ hx) (stops_behindEntry .array _ rest) bound).2,
      ih (by simpa using hbound)]
    rfl

theorem length_le_behindEntry (bracket : Bracket) (entries : List (List Char)) :
    entries.length < (behindEntry bracket entries).length := by
  induction entries with
  | nil => exact Nat.zero_lt_one
  | cons entry entries ih =>
    simp only [behindEntry, List.length_cons, List.length_append]
    omega

theorem readList_bracket (space : Space) (text : List Char) :
    readList read (space.text ++ '[' :: text) = readItems read (text.length + 1) true text := by
  rw [readList, skipSpace_append]
  rfl

/-- **A list is read item by item.** -/
theorem reads_list (hread : ∀ x text, holds x text → Reads read text x) (hopens : ∀ x text, holds x text → Opens text)
    {xs : List α} {text : List Char} (h : IsList holds xs text) : Reads (readList read) text xs := by
  intro space rest _
  obtain ⟨inner, items, rfl, hitems⟩ := h
  cases hitems with
  | nil =>
    show readList read (space.text ++ '[' :: (inner.text ++ [']'] ++ rest)) = _
    rw [readList_bracket, List.append_assoc, readItems_append]
    rfl
  | @cons x i xs items hx hitems =>
    have hlen := length_le_behindEntry .array (items.map Item.text)
    rw [List.length_map] at hlen
    show readList read (space.text ++ '[' :: (i.text ++ behindEntry .array (items.map Item.text) ++ rest)) = _
    rw [readList_bracket, List.append_assoc,
      (readItems_item (hread x _ hx) (hopens x _ hx) (stops_behindEntry .array _ rest) _).1]
    have hothers := readItems_behind hread hopens hitems rest
      (show items.length < (i.text ++ (behindEntry .array (items.map Item.text) ++ rest)).length by
        simp only [List.length_append]; omega)
    rw [hothers]
    rfl

end Lists

/-! ### Records -/

section Records
variable {σ : Type} {known : List (String × (List Char → Prop))} {fields : List (Field σ)} {effect : String → σ → σ}

/-- Fields are read from what members hold: a field adds what its member says, and what is no field is no known member. -/
def Fits (known : List (String × (List Char → Prop))) (fields : List (Field σ)) (effect : String → σ → σ) : Prop :=
  ∀ name, match known.lookup name with
    | none => fields.find? (·.name == name) = none
    | some holds => ∃ field, fields.find? (·.name == name) = some field ∧
        ∀ text, holds text → ∀ s, Reads (field.read s) text (effect name s)

/-- What is known after a member has been read. -/
def after (known : List (String × (List Char → Prop))) (effect : String → σ → σ) (s : σ) (name : String) : σ :=
  if (known.lookup name).isSome then effect name s else s

theorem readMembers_append (space : Space) (bound : Nat) (first : Bool) (seen : List String) (s : σ) (text : List Char) :
    readMembers fields bound first seen s (space.text ++ text) = readMembers fields bound first seen s text := by
  cases bound with
  | zero => rfl
  | succ bound => simp only [readMembers, nextMember_append]

/-- What stands behind the name of a member adds to what is known, or is passed over. -/
theorem read_value (hfits : Fits known fields effect) {name : String} {value : List Char}
    (hvalue : (known.lookup name).getD (Strict .value) value) (space : Space) {rest : List Char}
    (hrest : Stops isMore rest) (s : σ) :
    match fields.find? (·.name == name) with
    | none => skipValue (space.text ++ (value ++ rest)) = .ok rest ∧ after known effect s name = s
    | some field => field.read s (space.text ++ (value ++ rest)) = .ok (after known effect s name, rest) ∧
        (known.lookup name).isSome := by
  have hfit := hfits name
  cases hknown : known.lookup name with
  | none =>
    rw [hknown] at hfit hvalue
    simp only [hfit]
    exact ⟨skipValue_append hvalue space hrest, by rw [after, hknown]; rfl⟩
  | some holds =>
    rw [hknown] at hfit hvalue
    obtain ⟨field, hfield, hreads⟩ := hfit
    simp only [hfield]
    refine ⟨?_, rfl⟩
    rw [hreads value hvalue s space rest hrest, after, hknown]
    rfl

/-- **One member is read**, whether others are in front of it or not. -/
theorem readMembers_member (hfits : Fits known fields effect) {m : Member}
    (hm : (known.lookup m.name).getD (Strict .value) m.value) {seen : List String}
    (hseen : (known.lookup m.name).isSome → m.name ∉ seen) {more : List Char} (hmore : Stops isMore more) (bound : Nat)
    (s : σ) :
    readMembers fields (bound + 1) true seen s (m.text ++ more) =
        readMembers fields bound false (m.name :: seen) (after known effect s m.name) more ∧
      readMembers fields (bound + 1) false seen s (',' :: (m.text ++ more)) =
        readMembers fields bound false (m.name :: seen) (after known effect s m.name) more := by
  have hmember : m.text ++ more = m.before.text ++
      '"' :: (m.spelled ++ '"' :: (m.gap.text ++ ':' :: (m.gap'.text ++ (m.value ++ (m.behind.text ++ more))))) := by
    simp [Member.text, keyText]
  have hname := string_of_spells m.spells (m.gap.text ++ ':' :: (m.gap'.text ++ (m.value ++ (m.behind.text ++ more))))
  obtain ⟨hfirst, hlater⟩ := nextMember_key m.before
    (m.spelled ++ '"' :: (m.gap.text ++ ':' :: (m.gap'.text ++ (m.value ++ (m.behind.text ++ more)))))
  have hvalue := read_value hfits hm m.gap' (stops_append m.behind hmore) s
  rw [hmember, ← readMembers_append m.behind bound false (m.name :: seen)]
  cases hfield : fields.find? (·.name == m.name) with
  | none =>
    rw [hfield] at hvalue
    rw [hvalue.2]
    constructor
    · simp only [readMembers, hfirst, hname, hfield, colon_cons, hvalue.1, bind, Except.bind, pure, Except.pure]
    · simp only [readMembers, hlater, hname, hfield, colon_cons, hvalue.1, bind, Except.bind, pure, Except.pure]
  | some field =>
    rw [hfield] at hvalue
    have hnew : seen.contains m.name = false := by simpa using hseen hvalue.2
    constructor
    · simp only [readMembers, hfirst, hname, hfield, hnew, colon_cons, hvalue.1, bind, Except.bind]
      rfl
    · simp only [readMembers, hlater, hname, hfield, hnew, colon_cons, hvalue.1, bind, Except.bind]
      rfl

/-- The names that are known among those of some members. -/
def knownNames (known : List (String × (List Char → Prop))) (members : List Member) : List String :=
  (members.map Member.name).filter fun name => (known.lookup name).isSome

theorem knownNames_cons_of_isSome {m : Member} (h : (known.lookup m.name).isSome) (members : List Member) :
    knownNames known (m :: members) = m.name :: knownNames known members := by
  show (m.name :: members.map Member.name).filter (fun name => (known.lookup name).isSome) = _
  exact List.filter_cons_of_pos h

/-- No known name comes twice, and none is one of those that have been seen. -/
structure New (known : List (String × (List Char → Prop))) (seen : List String) (members : List Member) : Prop where
  nodup : (knownNames known members).Nodup
  unseen : ∀ name ∈ knownNames known members, name ∉ seen

theorem New.head {m : Member} {members : List Member} {seen : List String} (h : New known seen (m :: members))
    (hknown : (known.lookup m.name).isSome) : m.name ∉ seen :=
  h.unseen m.name (by rw [knownNames_cons_of_isSome hknown]; exact List.mem_cons_self)

theorem New.tail {m : Member} {members : List Member} {seen : List String} (h : New known seen (m :: members)) :
    New known (m.name :: seen) members := by
  have hsub : (knownNames known members).Sublist (knownNames known (m :: members)) :=
    (List.sublist_cons_self _ _).filter _
  refine ⟨hsub.nodup h.nodup, fun name hname hseen => ?_⟩
  rcases List.mem_cons.mp hseen with rfl | hseen
  · have hknown := (List.mem_filter.mp hname).2
    have hnodup := h.nodup
    rw [knownNames_cons_of_isSome hknown] at hnodup
    exact (List.nodup_cons.mp hnodup).1 hname
  · exact h.unseen name (hsub.subset hname) hseen

/-- **All members are read**, one after the other. -/
theorem readMembers_behind (hfits : Fits known fields effect) {members : List Member}
    (hmembers : ∀ m ∈ members, (known.lookup m.name).getD (Strict .value) m.value) {seen : List String}
    (hnew : New known seen members) (rest : List Char) {bound : Nat} (hbound : members.length < bound) (s : σ) :
    readMembers fields bound false seen s (behindEntry .object (members.map Member.text) ++ rest) =
      .ok ((members.map Member.name).foldl (after known effect) s, rest) := by
  induction members generalizing bound seen s with
  | nil =>
    obtain ⟨bound, rfl⟩ : ∃ b, bound = b + 1 := ⟨bound - 1, by omega⟩
    rfl
  | cons m members ih =>
    obtain ⟨bound, rfl⟩ : ∃ b, bound = b + 1 := ⟨bound - 1, by omega⟩
    have hmember := readMembers_member hfits (hmembers m List.mem_cons_self) hnew.head
      (stops_behindEntry .object (members.map Member.text) rest) bound s
    rw [List.map_cons, behindEntry, List.cons_append, List.append_assoc, hmember.2]
    exact ih (fun m' hm' => hmembers m' (List.mem_cons_of_mem m hm')) hnew.tail (by simpa using hbound) _

theorem readRecord_brace {α : Type} {finish : σ → Option α} {start s : σ} {x : α} {text rest : List Char} (space : Space)
    (h : readMembers fields (text.length + 1) true [] start text = .ok (s, rest)) (hx : finish s = some x) :
    readRecord fields start finish (space.text ++ '\x7b' :: text) = .ok (x, rest) := by
  rw [readRecord, skipSpace_append, skipSpace_cons rfl]
  simp only [h, hx]

/-- What members of known names add, in the order of the names that are given. -/
theorem foldl_after {members : List Member} {given : List String} (hgiven : (knownNames known members).Perm given)
    (hcomm : ∀ a b s, effect a (effect b s) = effect b (effect a s)) (s : σ) :
    (members.map Member.name).foldl (after known effect) s = given.foldl (fun s name => effect name s) s := by
  have hcomm' : RightCommutative fun (s : σ) name => effect name s := ⟨fun s a b => hcomm b a s⟩
  rw [← hgiven.foldl_eq, knownNames, List.foldl_filter]
  rfl

/-- **A record is read from an object**, whatever the order of its members, and whatever else is in it. -/
theorem reads_record {α : Type} {finish : σ → Option α} {start : σ} {x : α} {given : List String} {text : List Char}
    (hfits : Fits known fields effect) (hcomm : ∀ a b s, effect a (effect b s) = effect b (effect a s))
    (hgiven : given.Nodup) (hx : finish (given.foldl (fun s name => effect name s) start) = some x)
    (h : IsObject known given text) : Reads (readRecord fields start finish) text x := by
  intro space rest _
  obtain ⟨inner, members, rfl, hnames, hmembers⟩ := h
  rw [← foldl_after hnames hcomm] at hx
  have hnew : New known [] members := ⟨hnames.nodup_iff.mpr hgiven, fun _ _ => List.not_mem_nil⟩
  cases members with
  | nil =>
    show readRecord fields start finish (space.text ++ '\x7b' :: (inner.text ++ ['\x7d'] ++ rest)) = _
    refine readRecord_brace space ?_ hx
    rw [List.append_assoc, readMembers_append]
    rfl
  | cons m members =>
    have hlen := length_le_behindEntry .object (members.map Member.text)
    rw [List.length_map] at hlen
    show readRecord fields start finish
      (space.text ++ '\x7b' :: (m.text ++ behindEntry .object (members.map Member.text) ++ rest)) = _
    refine readRecord_brace space ?_ hx
    have hmember := readMembers_member hfits (hmembers m List.mem_cons_self) hnew.head
      (stops_behindEntry .object (members.map Member.text) rest)
      (m.text ++ behindEntry .object (members.map Member.text) ++ rest).length start
    rw [List.append_assoc] at hmember ⊢
    rw [hmember.1]
    exact readMembers_behind hfits (fun m' hm' => hmembers m' (List.mem_cons_of_mem m hm')) hnew.tail rest
      (by simp only [List.length_append]; omega) _

theorem opens_of_isObject {given : List String} {text : List Char} (h : IsObject known given text) : Opens text := by
  obtain ⟨inner, members, rfl, -, -⟩ := h
  cases members with
  | nil => exact ⟨'\x7b', inner.text ++ ['\x7d'], rfl, rfl, by decide⟩
  | cons m members =>
    exact ⟨'\x7b', m.text ++ behindEntry .object (members.map Member.text), rfl, rfl, by decide⟩

theorem isObject_single {m : Member} {holds : List Char → Prop} (h : holds m.value) (inner : Space) :
    IsObject [(m.name, holds)] [m.name] (inBrackets .object inner [m.text]) := by
  have hlookup : List.lookup m.name [(m.name, holds)] = some holds := by simp
  refine ⟨inner, [m], rfl, ?_, List.forall_mem_singleton.mpr ?_⟩
  · simp [hlookup]
  · rw [hlookup]
    exact h

/-- A record that is all in one field. -/
theorem reads_single {α : Type} {name : String} {read : Reader α} {holds : List Char → Prop} {x : α} {text : List Char}
    (hread : ∀ text, holds text → Reads read text x) (h : IsObject [(name, holds)] [name] text) :
    Reads (readRecord [.of name read fun x _ => some x] none id) text x := by
  have hfits : Fits [(name, holds)] [.of name read fun x _ => some x] (fun _ _ => some x) := by
    intro other
    by_cases hother : other = name
    · rw [hother, show List.lookup name [(name, holds)] = some holds by simp]
      exact ⟨.of name read fun x _ => some x, by simp [Field.of], fun text htext s => (hread text htext).store name _ s⟩
    · rw [show List.lookup other [(name, holds)] = none by simp [List.lookup_cons, beq_false_of_ne hother]]
      simpa [Field.of] using Ne.symm hother
  exact reads_record hfits (fun _ _ _ => rfl) (List.nodup_singleton name) rfl h

end Records

end ManifestBump.Notation.Json

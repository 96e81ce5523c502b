import ManifestBump.Event
import ManifestBump.Proofs.Notation.Json.Record

/-! Events are read whatever their layout.

A text says an event if it is an object with a pull request, which has a number in plain digits, labels with names and a
head branch with its ref (`IsEvent`). The order of members, the space around them, the spelling of strings and all members
of other names are up to whoever writes it. All these texts are read as the same event (`load_of_isEvent`). -/
namespace ManifestBump.Event
open Notation.Json
open ManifestBump.Json (Space Strict Bracket keyText)

/-! ### Texts of events -/

/-- A label, as an object with its name. -/
def IsLabel (name : String) : List Char → Prop := IsObject [("name", IsString name)] ["name"]

/-- A branch, as an object with its name. -/
def IsBranch (name : String) : List Char → Prop := IsObject [("ref", IsString name)] ["ref"]

/-- The fields of a pull request, by what they hold. -/
def fields (event : Event) : List (String × (List Char → Prop)) :=
  [("number", (· = Nat.toDigits 10 event.number.toNat)), ("labels", IsList IsLabel event.labels),
    ("head", IsBranch event.head)]

/-- The fields that are there: all of them, but labels may be left out if there are none. -/
def Given (event : Event) (given : List String) : Prop :=
  given = ["number", "labels", "head"] ∨ event.labels = [] ∧ given = ["number", "head"]

/-- A pull request, as an object. -/
def IsPullRequest (event : Event) (text : List Char) : Prop :=
  ∃ given, Given event given ∧ IsObject (fields event) given text

/-- A whole text that says an event, with space around it. -/
def IsEvent (event : Event) (text : List Char) : Prop :=
  ∃ (before behind : Space) (root : List Char), IsObject [("pull_request", IsPullRequest event)] ["pull_request"] root ∧
    text = before.text ++ root ++ behind.text

/-! ### Labels and branches -/

theorem reads_label {name : String} {text : List Char} (h : IsLabel name text) : Reads readLabel text name :=
  reads_single (fun _ => reads_string) h

theorem reads_branch {name : String} {text : List Char} (h : IsBranch name text) : Reads readBranch text name :=
  reads_single (fun _ => reads_string) h

theorem reads_labels {labels : List String} {text : List Char} (h : IsList IsLabel labels text) :
    Reads (readList readLabel) text labels :=
  reads_list (fun _ _ => reads_label) (fun _ _ => opens_of_isObject) h

/-! ### Pull requests -/

/-- What a field adds to what is known. -/
def effect (event : Event) (name : String) (p : Partial) : Partial :=
  match name with
  | "number" => { p with number := some event.number }
  | "labels" => { p with labels := some event.labels }
  | "head" => { p with head := some event.head }
  | _ => p

theorem effect_comm (event : Event) (a b : String) (p : Partial) :
    effect event a (effect event b p) = effect event b (effect event a p) := by
  simp only [effect]
  split <;> split <;> rfl

theorem fits_pullRequest (event : Event) :
    Fits (fields event)
      [.of "number" readWhole fun n (p : Partial) => { p with number := some n },
       .of "labels" (readList readLabel) fun labels p => { p with labels := some labels },
       .of "head" readBranch fun head p => { p with head := some head }] (effect event) := by
  intro name
  by_cases hnumber : name = "number"
  · subst hnumber
    exact ⟨_, rfl, fun text htext p => by rw [htext]; exact (reads_whole event.number).store _ _ p⟩
  by_cases hlabels : name = "labels"
  · subst hlabels
    exact ⟨_, rfl, fun text htext p => (reads_labels htext).store _ _ p⟩
  by_cases hhead : name = "head"
  · subst hhead
    exact ⟨_, rfl, fun text htext p => (reads_branch htext).store _ _ p⟩
  have hnone : (fields event).lookup name = none := by
    simp [fields, List.lookup_cons, beq_false_of_ne hnumber, beq_false_of_ne hlabels, beq_false_of_ne hhead]
  rw [hnone]
  simp [Field.of, Ne.symm hnumber, Ne.symm hlabels, Ne.symm hhead]

/-- The fields that are given make the whole pull request. -/
theorem finish_given {event : Event} {given : List String} (h : Given event given) :
    given.Nodup ∧ (given.foldl (fun p name => effect event name p) {}).finish = some event := by
  rcases h with rfl | ⟨hlabels, rfl⟩
  · exact ⟨by decide, rfl⟩
  · refine ⟨by decide, ?_⟩
    show some (⟨event.number, [], event.head⟩ : Event) = some event
    rw [← hlabels]

theorem reads_pullRequest {event : Event} {text : List Char} (h : IsPullRequest event text) :
    Reads readPullRequest text event := by
  obtain ⟨given, hgiven, hobject⟩ := h
  obtain ⟨hnodup, hfinish⟩ := finish_given hgiven
  exact reads_record (fits_pullRequest event) (effect_comm event) hnodup hfinish hobject

/-! ### Events -/

theorem parse_of_isEvent {event : Event} {text : List Char} (h : IsEvent event text) : parse text = .ok event := by
  obtain ⟨before, behind, root, hroot, rfl⟩ := h
  have hpull : ∀ text, IsPullRequest event text → Reads readPullRequest text event := fun _ => reads_pullRequest
  have hread := reads_single hpull hroot before behind.text
    (by simpa using stops_append behind Text.stops_nil)
  have hrest : skipSpace behind.text = [] := by
    have hspace := skipSpace_append behind []
    rwa [List.append_nil] at hspace
  rw [List.append_assoc]
  simp only [parse, readAll, hread, bind, Except.bind, hrest, List.isEmpty_nil, if_true]
  rfl

/-- **An event is read from every text that says it**: the number, the labels in order and the head branch. -/
theorem load_of_isEvent {tree : FileTree} {path : String} {text : String} {event : Event} (hread : tree.read path = .ok text)
    (h : IsEvent event text.toList) : load tree path = .ok event := by
  simp only [load, hread, parse_of_isEvent h]

/-- A branch in front of the labels and these in front of the number, a label with escapes in its key and its text, and
members of other names: one of them comes twice, and one of them has a known name further inside. -/
theorem load_of_isEvent_scrambled :
    load ⟨[(["event.json"], .file (.text ("\x7b\"pull_request\":\x7b\"x\":\x7b\"ref\":null\x7d,\"head\":\x7b\"ref\":\"dev\"\x7d," ++
      "\"labels\":[\x7b\"n\\u0061me\":\"\\uD83d\\ude00\\t\"\x7d ],\"x\":null,\"number\":7\x7d\x7d\n")))]⟩ "/event.json" =
      .ok ⟨7, ["😀\t"], "dev"⟩ := by
  have hname : Spells ['n', 'a', 'm', 'e'] ('n' :: '\\' :: 'u' :: (['0', '0', '6', '1'] ++ ['m', 'e'])) :=
    .plain (by decide) (.unit (by decide) (@CodeUnit.mk 0 0 6 1 _ _ _ _ (.inl rfl) (.inl rfl) (.inl rfl) (.inl rfl))
      (spells_plain (by simp)))
  let smile : List Char := '\\' :: 'u' :: (['D', '8', '3', 'd'] ++ '\\' :: 'u' :: (['d', 'e', '0', '0'] ++ ['\\', 't']))
  have hsmile : Spells ['😀', '\t'] smile :=
    .pair (by decide) (@CodeUnit.mk 13 8 3 13 _ _ _ _ (.inr rfl) (.inl rfl) (.inl rfl) (.inl rfl))
      (@CodeUnit.mk 13 14 0 0 _ _ _ _ (.inl rfl) (.inl rfl) (.inl rfl) (.inl rfl)) (.short (by decide) .nil)
  have hplain (name : String) (h : ∀ c ∈ name.toList, c ≠ '"' ∧ c ≠ '\\' ∧ 0x20 ≤ c.toNat) :
      Spells name.toList name.toList := spells_plain h
  let member (name : String) (value spelled : List Char) (h : Spells name.toList spelled) : Member :=
    ⟨Json.tight, name, spelled, Json.tight, Json.tight, value, Json.tight, h⟩
  let null : List Char := ['n', 'u', 'l', 'l']
  have hnull : Strict .value null := .name (by decide)
  let inner := member "ref" null _ (hplain "ref" (by simp))
  have hinner : Strict .value (inBrackets .object Json.tight [inner.text]) :=
    .full (.member Json.tight Json.tight Json.tight Json.tight (escaped_of_spells inner.spells) hnull)
  let ref := member "ref" ['"', 'd', 'e', 'v', '"'] _ (hplain "ref" (by simp))
  have hhead : IsBranch "dev" (inBrackets .object Json.tight [ref.text]) :=
    isObject_single (m := ref) ⟨['d', 'e', 'v'], hplain "dev" (by simp), rfl⟩ Json.tight
  let label := member "name" ('"' :: (smile ++ ['"'])) _ hname
  have hlabel : IsLabel "😀\t" (inBrackets .object Json.tight [label.text]) :=
    isObject_single (m := label) ⟨_, hsmile, rfl⟩ Json.tight
  let item : Item := ⟨Json.tight, inBrackets .object Json.tight [label.text], ⟨[' '], by simp⟩⟩
  have hlabels : IsList IsLabel ["😀\t"] (inBrackets .array Json.tight [item.text]) :=
    ⟨Json.tight, [item], rfl, .cons hlabel .nil⟩
  let members : List Member :=
    [member "x" (inBrackets .object Json.tight [inner.text]) _ (hplain "x" (by simp)),
     member "head" (inBrackets .object Json.tight [ref.text]) _ (hplain "head" (by simp)),
     member "labels" (inBrackets .array Json.tight [item.text]) _ (hplain "labels" (by simp)),
     member "x" null _ (hplain "x" (by simp)), member "number" ['7'] _ (hplain "number" (by simp))]
  have hpull : IsPullRequest ⟨7, ["😀\t"], "dev"⟩ (inBrackets .object Json.tight (members.map Member.text)) := by
    refine ⟨_, .inl rfl, Json.tight, members, rfl, ?_, ?_⟩
    · show List.Perm ["head", "labels", "number"] _
      decide
    · simp only [members, List.forall_mem_cons]
      exact ⟨hinner, hhead, hlabels, hnull, rfl, List.forall_mem_nil _⟩
  let pull := member "pull_request" (inBrackets .object Json.tight (members.map Member.text)) _
    (hplain "pull_request" (by simp))
  refine load_of_isEvent rfl ⟨Json.tight, ⟨['\n'], by simp⟩, inBrackets .object Json.tight [pull.text], ?_, ?_⟩
  · exact isObject_single (m := pull) hpull Json.tight
  · simp [pull, members, item, label, ref, inner, smile, null, member, inBrackets, behindEntry, Member.text, Item.text,
      keyText, Json.tight, Bracket.opening, Bracket.closing]

end ManifestBump.Event

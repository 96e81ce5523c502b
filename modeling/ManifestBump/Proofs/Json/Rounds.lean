import ManifestBump.Proofs.Json.Index
import ManifestBump.Proofs.Text.Rounds

/-! Lookups in JSON texts, in bytes, that note what they do.

A key that is none, or that is at another depth, is passed over together with its opening quote. The object of a key
opens and closes inside of the object it is looked for in, also where braces are missing (`nested_object`). Hence every
search of a lookup, in whatever object, comes to an end with all it notes in order (`answers_notedIn`). -/
namespace ManifestBump.Json
open Text

/-! ### Lookups -/

/-- A key with a scalar is what is looked for, or the search goes on behind its opening quote. -/
def judgeLeaf (outline : Outline) (haystack : List Char) (depth : Nat) (cursor : Cursor) (slot : Slot) :
    Noting Round := do
  if isKey outline cursor.offset depth then return .found (slot.placed cursor.offset)
  else return .again (← next? haystack (cursor.offset + 1))

/-- In the object of a key the rest of the path is looked for, unless the key is none. -/
def judgeParent (inner : (depth : Nat) → Span → Noting (Option Occurrence)) (outline : Outline) (size : Nat)
    (haystack : List Char) (depth : Nat) (cursor : Cursor) (lead : Nat) : Noting Round := do
  let start ← next? haystack (cursor.offset + 1)
  let opening := cursor.offset + byteSize (cursor.rest.take lead)
  if isKey outline cursor.offset depth && !outline.inLiteral opening then
    let closing := (outline.closingBrace? opening).getD size
    match ← inner (depth + 1) ⟨opening + 1, closing⟩ with
    | some place => return .found place
    | none => return .again start
  else return .again start

/-- Looks for a path inside a stretch of the text that lies inside of another one, both in bytes. -/
def notedIn (text : List Char) (outline : Outline) (leaf : List Char) :
    List (List Char) → (depth : Nat) → (outer scope : Span) → Noting (Option Occurrence)
  | [], depth, outer, scope => do
    note (.entered outer scope)
    let haystack ← Span.read? ⟨0, scope.stop⟩ text
    rounds (fun cursor => leaf? leaf cursor.rest) (judgeLeaf outline haystack depth) haystack scope.start
  | key :: keys, depth, outer, scope => do
    note (.entered outer scope)
    let haystack ← Span.read? ⟨0, scope.stop⟩ text
    rounds (fun cursor => object? key cursor.rest)
      (judgeParent (fun depth inner => notedIn text outline leaf keys depth scope inner) outline (byteSize text)
        haystack depth) haystack scope.start

/-- Looks for a path in a text. -/
def noted (text : List Char) (path : KeyPath) : Noting (Option Occurrence) := do
  let outline ← Outline.scanBytes? text
  let all : Span := ⟨0, byteSize text⟩
  notedIn text outline path.leaf.toList (path.parents.map String.toList) 1 all all

/-! ### Places in bytes -/

section Places
variable {text : List Char} {o : Outline} (ho : o.Within (· ≤ text.length)) {stop n : Nat}

/-- Behind the opening quote of a key there are more characters. -/
theorem next?_of_afterKey? {key haystack : List Char} {found}
    (h : afterKey? key (haystack.drop n) = some found) :
    n + 2 ≤ haystack.length ∧
      next? haystack (byteOffset haystack n + 1) = some (byteOffset haystack (n + 2)) := by
  obtain ⟨opening, tail, hdrop, hquote⟩ := afterKey?_head h
  obtain ⟨c, hc, -⟩ := afterKey?_getElem h
  have hlen := (List.getElem?_eq_some_iff.mp hc).1
  rw [List.length_drop] at hlen
  have hone : opening.utf8Size = 1 := by rcases isQuote_iff.mp hquote with rfl | rfl <;> rfl
  have hsucc := byteOffset_succ hdrop
  rw [hone] at hsucc
  exact ⟨by omega, by rw [← hsucc, next?_byteOffset (by omega)]⟩

/-- The brace that opens an object takes one byte. -/
theorem opening_bytes {key : List Char} {lead : Nat} (hstop : stop ≤ text.length)
    (hobject : object? key ((text.take stop).drop n) = some lead) :
    n + lead < text.length ∧
      byteOffset (text.take stop) n + byteSize (((text.take stop).drop n).take lead) = byteOffset text (n + lead) ∧
      byteOffset text (n + lead + 1) = byteOffset text (n + lead) + 1 := by
  have hlt := object?_lt_length hobject
  rw [List.length_drop, List.length_take_of_le hstop] at hlt
  obtain ⟨front, rest, hkey, rfl⟩ := object?_eq_some_iff.mp hobject
  obtain ⟨-, -, -, -, -, -, -, -, -, -, hdrop⟩ := afterKey?_eq_some_iff.mp hkey
  have hbrace : (text.take stop).drop (n + front.length) = ['\x7b'] ++ rest := by
    rw [← List.drop_drop, hdrop, List.drop_left]
    rfl
  refine ⟨by omega, ?_, byteOffset_add_length hbrace⟩
  rw [← byteOffset_add, byteOffset_take (by omega)]

include ho

theorem isKey_bytes (hn : n ≤ text.length) (depth : Nat) :
    isKey (o.relabel (byteOffset text)) (byteOffset text n) depth = isKey o n depth :=
  isKey_relabel (Outline.monotone_byteOffset text) ho hn depth

/-- An object takes the same stretch, in bytes. -/
theorem objectScope_bytes {opening : Nat} (hopening : opening < text.length)
    (hbody : byteOffset text (opening + 1) = byteOffset text opening + 1) :
    (⟨byteOffset text opening + 1,
      ((o.relabel (byteOffset text)).closingBrace? (byteOffset text opening)).getD (byteSize text)⟩ : Span) =
      (objectScope text o opening).inBytes text := by
  rw [Outline.closingBrace?_relabel (Outline.monotone_byteOffset text) ho hopening.le, ← hbody, ← byteOffset_length]
  simp only [objectScope, Span.inBytes]
  cases o.closingBrace? opening <;> rfl

end Places

/-! ### Nested stretches -/

variable {text : List Char}

/-- An object closes behind its opening brace. -/
theorem start_le_stop_objectScope {b : Outline.Brace} (hb : b ∈ (Outline.scan text).braces) :
    (objectScope text (Outline.scan text) b.offset).start ≤ (objectScope text (Outline.scan text) b.offset).stop := by
  obtain ⟨⟨c, hc, -⟩, -⟩ := ((Outline.faithful_scan text).brace_iff b.offset).mp ⟨b, hb, rfl⟩
  obtain ⟨hlt, -⟩ := List.getElem?_eq_some_iff.mp hc
  obtain ⟨bs, cs, hsplit⟩ := List.append_of_mem hb
  have hsorted := Outline.sorted_braces text
  simp only [objectScope, Outline.closingBrace?_of_split hsorted hsplit]
  cases hfirst : cs.find? (fun a => decide (a.depth < b.depth)) with
  | none => exact hlt
  | some c =>
    rw [hsplit] at hsorted
    exact (List.pairwise_cons.mp (List.pairwise_append.mp hsorted).2.1).1 c (List.mem_of_find?_eq_some hfirst)

/-- **The object of a key lies inside of the stretch the key was found in**, and all its objects close in it. -/
theorem nested_object {outer scope : Span} (h : Nested text outer scope) (hencloses : Encloses text scope)
    {key : List Char} {n lead : Nat} (hn : scope.start ≤ n)
    (hobject : object? key ((text.take scope.stop).drop n) = some lead)
    (hliteral : (Outline.scan text).inLiteral (n + lead) = false) :
    Nested text scope (objectScope text (Outline.scan text) (n + lead)) ∧
      Encloses text (objectScope text (Outline.scan text) (n + lead)) := by
  obtain ⟨hlt, b, hb, hoffset⟩ := exists_brace_of_object? hobject hliteral
  rw [← hoffset] at hlt ⊢
  have hstart : scope.start ≤ b.offset := by omega
  exact ⟨{
    start_le := Nat.le_succ_of_le hstart
    ordered := start_le_stop_objectScope hb
    stop_le := hencloses b hb hstart hlt
    inside := h.stop_le_length }, encloses_object hb⟩

/-! ### The outcome of a lookup -/

section Judges
variable {o : Outline} (ho : o.Within (· ≤ text.length)) {stop depth low : Nat} (hstop : stop ≤ text.length)
include ho hstop

/-- Keys with scalars are judged as attempts judge them. -/
theorem judges_leaf (key : List Char) :
    Judges text (text.take stop) low (leafAttempt o key depth) (fun cursor => leaf? key cursor.rest)
      (judgeLeaf (o.relabel (byteOffset text)) (text.take stop) depth) where
  atEnd cursor hrest := by
    simp only [hrest]
    exact leaf?_eq_none (afterKey?_nil key)
  missed n hmissed := by
    have hmissed : leaf? key ((text.take stop).drop n) = none := hmissed
    simp only [leafAttempt, Cursor.at, hmissed]
  seen n slot _ hseen := by
    have hseen : leaf? key ((text.take stop).drop n) = some slot := hseen
    obtain ⟨lead, rest, inner, hkey, -, -⟩ := leaf?_eq_some_iff.mp hseen
    obtain ⟨hlen, hnext⟩ := next?_of_afterKey? hkey
    have hn : n ≤ stop := by
      rw [List.length_take_of_le hstop] at hlen
      omega
    obtain ⟨rest, htext⟩ := leaf?_text hseen
    have hwhole : slot.whole <+: (text.take stop).drop n := ⟨rest, htext.symm⟩
    have hattempt : leafAttempt o key depth (Cursor.at (text.take stop) n) =
        if isKey o n depth then .found (slot.occurrence n) else .pass 1 := by
      rw [leafAttempt, show leaf? key (Cursor.at (text.take stop) n).rest = some slot from hseen]
      rfl
    have hjudge : judgeLeaf (o.relabel (byteOffset text)) (text.take stop) depth
        ((Cursor.at (text.take stop) n).inBytes (text.take stop)) slot =
        if isKey o n depth then pure (.found (slot.placed (byteOffset text n)))
        else liftM (next? (text.take stop) (byteOffset (text.take stop) n + 1)) >>= fun next => pure (.again next) := by
      rw [← isKey_bytes ho (hn.trans hstop), ← byteOffset_take hn]
      rfl
    rw [hattempt, hjudge]
    cases isKey o n depth with
    | true =>
      rw [Slot.placed_eq hwhole]
      exact ⟨_, .pure _, .found (slot.sound_occurrence text n)⟩
    | false => exact ⟨_, (ComesTo.lift hnext).bind (.pure _), .again hlen⟩

/-- How a key with an object is judged, told in characters. -/
theorem judgeParent_eq {inner : (depth : Nat) → Span → Noting (Option Occurrence)} {key : List Char} {n lead : Nat}
    (hobject : object? key ((text.take stop).drop n) = some lead) (hn : n ≤ stop) :
    judgeParent inner (o.relabel (byteOffset text)) (byteSize text) (text.take stop) depth
        ((Cursor.at (text.take stop) n).inBytes (text.take stop)) lead =
      (do
        let start ← next? (text.take stop) (byteOffset (text.take stop) n + 1)
        if isKey o n depth && !o.inLiteral (n + lead) then
          match ← inner (depth + 1) ((objectScope text o (n + lead)).inBytes text) with
          | some place => return .found place
          | none => return .again start
        else return .again start) := by
  obtain ⟨hlt, hopening, hbody⟩ := opening_bytes hstop hobject
  have hscope := objectScope_bytes ho hlt hbody
  show (do
    let start ← next? (text.take stop) (byteOffset (text.take stop) n + 1)
    let opening := byteOffset (text.take stop) n + byteSize (((text.take stop).drop n).take lead)
    if isKey (o.relabel (byteOffset text)) (byteOffset (text.take stop) n) depth &&
        !(o.relabel (byteOffset text)).inLiteral opening then
      let closing := ((o.relabel (byteOffset text)).closingBrace? opening).getD (byteSize text)
      match ← inner (depth + 1) ⟨opening + 1, closing⟩ with
      | some place => return .found place
      | none => return .again start
    else return .again start : Noting Round) = _
  simp only [hopening, hscope, Outline.inLiteral_relabel (Outline.monotone_byteOffset text) ho hlt.le]
  simp only [byteOffset_take hn, isKey_bytes ho (hn.trans hstop)]

end Judges

/-- Keys with objects are judged as attempts judge them, if the lookups in the objects are in order. -/
theorem judges_parent {leaf key : List Char} {keys : List (List Char)} {depth : Nat} {outer scope : Span}
    {inner : (depth : Nat) → Span → Noting (Option Occurrence)} (h : Nested text outer scope)
    (hencloses : Encloses text scope)
    (hinner : ∀ depth object, Nested text scope object → Encloses text object →
      Answers text (inner depth (object.inBytes text)) (findIn text (Outline.scan text) leaf keys depth object)) :
    Judges text (text.take scope.stop) scope.start (parentAttempt text (Outline.scan text) leaf key keys depth)
      (fun cursor => object? key cursor.rest)
      (judgeParent inner ((Outline.scan text).relabel (byteOffset text)) (byteSize text) (text.take scope.stop)
        depth) where
  atEnd cursor hrest := by
    simp only [hrest]
    exact object?_eq_none (afterKey?_nil key)
  missed n hmissed := by
    have hmissed : object? key ((text.take scope.stop).drop n) = none := hmissed
    simp only [parentAttempt, Cursor.at, hmissed]
  seen n lead hlow hseen := by
    have hobject : object? key ((text.take scope.stop).drop n) = some lead := hseen
    have hstop := h.stop_le_length
    obtain ⟨front, rest, hkey, -⟩ := object?_eq_some_iff.mp hobject
    obtain ⟨hlen, hnext⟩ := next?_of_afterKey? hkey
    have hn : n ≤ scope.stop := by
      rw [List.length_take_of_le hstop] at hlen
      omega
    have hattempt : parentAttempt text (Outline.scan text) leaf key keys depth (Cursor.at (text.take scope.stop) n) =
        if isKey (Outline.scan text) n depth && !(Outline.scan text).inLiteral (n + lead) then
          (findIn text (Outline.scan text) leaf keys (depth + 1) (objectScope text (Outline.scan text) (n + lead))).elim
            (.pass 1) .found
        else .pass 1 := parentAttempt_of_object? hobject
    rw [hattempt, judgeParent_eq (Outline.within_scan text) hstop hobject hn]
    cases hyes : isKey (Outline.scan text) n depth && !(Outline.scan text).inLiteral (n + lead) with
    | false => exact ⟨_, (ComesTo.lift hnext).bind (.pure _), .again hlen⟩
    | true =>
      obtain ⟨-, hliteral⟩ := Bool.and_eq_true_iff.mp hyes
      obtain ⟨hnested, hobjects⟩ := nested_object h hencloses hlow hobject (by simpa using hliteral)
      have hanswers := hinner (depth + 1) _ hnested hobjects
      generalize findIn text (Outline.scan text) leaf keys (depth + 1)
        (objectScope text (Outline.scan text) (n + lead)) = answer at hanswers ⊢
      cases answer with
      | none => exact ⟨_, (ComesTo.lift hnext).bind (hanswers.ends.bind (.pure _)), .again hlen⟩
      | some place =>
        refine ⟨_, (ComesTo.lift hnext).bind (hanswers.ends.bind (.pure _)), ?_⟩
        exact .found (hanswers.sound place rfl)

/-- **Every lookup in a stretch comes to an end, and to the answer of the lookup in characters.** None of its cuts
fails, and all that it and the lookups in objects note is in order. -/
theorem answers_notedIn {leaf : List Char} {keys : List (List Char)} {depth : Nat} {outer scope : Span}
    (h : Nested text outer scope) (hencloses : Encloses text scope) :
    Answers text (notedIn text ((Outline.scan text).relabel (byteOffset text)) leaf keys depth (outer.inBytes text)
      (scope.inBytes text)) (findIn text (Outline.scan text) leaf keys depth scope) := by
  induction keys generalizing depth outer scope with
  | nil =>
    have hstop := h.stop_le_length
    exact .after (.note h.sound) (.after (.lift (read?_front text scope.stop))
      (answers_rounds (judges_leaf (Outline.within_scan text) hstop leaf) (Nat.zero_le _) h.ordered hstop))
  | cons key keys ih =>
    have hstop := h.stop_le_length
    exact .after (.note h.sound) (.after (.lift (read?_front text scope.stop))
      (answers_rounds (judges_parent h hencloses fun _ _ hnested hobjects => ih hnested hobjects) le_rfl h.ordered
        hstop))

/-- **A lookup comes to an end, and to what the lookup in characters finds.** -/
theorem answers_noted (text : List Char) (path : KeyPath) : Answers text (noted text path) (find? text path) := by
  have hencloses : Encloses text (Span.all text) := fun b _ _ _ => objectScope_stop_le_length text b.offset
  have h : Answers text (notedIn text ((Outline.scan text).relabel (byteOffset text)) path.leaf.toList
      (path.parents.map String.toList) 1 ((Span.all text).inBytes text) ((Span.all text).inBytes text))
      (find? text path) := answers_notedIn (nested_all text) hencloses
  rw [Span.inBytes, Span.all, byteOffset_length] at h
  exact .after (.lift (Outline.scanBytes?_eq text)) h

end ManifestBump.Json

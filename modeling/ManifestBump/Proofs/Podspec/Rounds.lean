import ManifestBump.Proofs.Podspec.Edit
import ManifestBump.Proofs.Text.Rounds

/-! Lookups in podspecs, in bytes, that note what they do.

There is one search only, through the whole text. An assignment in a comment is passed over, and the search goes on one
character behind where it was matched, so that matches may overlap. The search comes to an end with all it notes in
order (`answers_noted`). -/
namespace ManifestBump.Podspec
open Text

/-- Where the line begins that a text ends with, in bytes. -/
def lineStart (text : List Char) : Nat := byteSize (text.reverse.dropWhile (· != '\n')).reverse

/-- An assignment outside of comments is what is looked for, or the search goes on behind its first character. -/
def judgeTarget (text : List Char) (cursor : Cursor) (seen : Nat × Slot) : Noting Round := do
  let start := cursor.offset + byteSize (cursor.rest.take seen.1)
  let before ← Span.read? ⟨0, start⟩ text
  let line ← Span.read? ⟨lineStart before, start⟩ text
  if commentBegins none line then return .again (← next? text cursor.offset)
  else return .found (seen.2.placed cursor.offset)

/-- Looks for a path in a text. -/
def noted (block : String) (text : List Char) (path : KeyPath) : Noting (Option Occurrence) := do
  let all : Span := ⟨0, byteSize text⟩
  note (.entered all all)
  rounds (candidate? (leftHandSide block path).toList) (judgeTarget text) text 0

/-- The line in front of a place can be read in bytes. -/
theorem read?_lineBefore (text : List Char) (n : Nat) :
    Span.read? ⟨lineStart (text.take n), byteOffset text n⟩ text = some (lineBefore text n) := by
  have hcut : ((text.take n).reverse.dropWhile (· != '\n')).reverse ++ lineBefore text n = text.take n := by
    rw [lineBefore, ← List.reverse_append, List.takeWhile_append_dropWhile, List.reverse_reverse]
  refine Span.read?_eq_some_iff.mpr ⟨((text.take n).reverse.dropWhile (· != '\n')).reverse, text.drop n, ?_, ?_⟩
  · rw [hcut, List.take_append_drop]
  · rw [hcut]
    rfl

/-- An assignment with its quotes and what stands in front of it is a stretch of the text. -/
theorem candidate?_whole {target : List Char} {cursor : Cursor} {shift : Nat} {slot : Slot}
    (h : candidate? target cursor = some (shift, slot)) : slot.whole <+: cursor.rest := by
  obtain ⟨inner, hinner, rfl, -, -⟩ := candidate?_eq_some h
  obtain ⟨rest, htext⟩ := assignment?_text hinner
  refine ⟨rest, ?_⟩
  conv_rhs => rw [← List.take_append_drop shift cursor.rest, htext]
  simp [Slot.whole, Slot.behind]

/-- How an assignment is judged, told in characters. -/
theorem comesTo_judgeTarget {text : List Char} {n shift : Nat} {slot : Slot} {P : Note → Prop} {round : Round}
    (h : ComesTo P
      (if commentBegins none (lineBefore text (n + shift)) then
        (next? text (byteOffset text n) : Noting Nat) >>= fun next => pure (.again next)
      else pure (.found (slot.placed (byteOffset text n)))) round) :
    ComesTo P (judgeTarget text ((Cursor.at text n).inBytes text) (shift, slot)) round := by
  have hstart : byteOffset text n + byteSize ((text.drop n).take shift) = byteOffset text (n + shift) :=
    (byteOffset_add text n shift).symm
  refine (ComesTo.lift (a := text.take (n + shift)) ?_).bind
    ((ComesTo.lift (a := lineBefore text (n + shift)) ?_).bind h)
  · exact hstart ▸ read?_front text (n + shift)
  · exact hstart ▸ read?_lineBefore text (n + shift)

/-- Looking for an assignment outside of comments at a place. -/
def targetAttempt (text target : List Char) (cursor : Cursor) : Attempt Occurrence :=
  match candidate? target cursor with
  | none => .pass 0
  | some (shift, slot) =>
    if commentBegins none (lineBefore text (cursor.offset + shift)) then .pass 0
    else .found (slot.occurrence cursor.offset)

/-- Assignments are judged as attempts judge them. -/
theorem judges_target (text target : List Char) :
    Judges text text 0 (targetAttempt text target) (candidate? target) (judgeTarget text) where
  atEnd _ hrest := candidate?_of_nil hrest
  missed n hmissed := by
    have hmissed : candidate? target (Cursor.at text n) = none := hmissed
    rw [targetAttempt, hmissed]
  seen n seen _ hseen := by
    obtain ⟨shift, slot⟩ := seen
    have hseen : candidate? target (Cursor.at text n) = some (shift, slot) := hseen
    have hlt : n < text.length := by
      by_contra hge
      rw [candidate?_of_nil (List.drop_eq_nil_of_le (by omega))] at hseen
      cases hseen
    have hwhole : slot.whole <+: (text.take text.length).drop n := by
      rw [List.take_length]
      exact candidate?_whole hseen
    have hattempt : targetAttempt text target (Cursor.at text n) =
        if commentBegins none (lineBefore text (n + shift)) then .pass 0 else .found (slot.occurrence n) := by
      rw [targetAttempt, hseen]
      rfl
    rw [hattempt]
    by_cases hcomment : commentBegins none (lineBefore text (n + shift)) = true
    · rw [if_pos hcomment]
      refine ⟨_, comesTo_judgeTarget ?_, .again (show n + 1 + 0 ≤ text.length from hlt)⟩
      rw [if_pos hcomment]
      exact (ComesTo.lift (next?_byteOffset hlt)).bind (.pure _)
    · rw [if_neg hcomment]
      refine ⟨_, comesTo_judgeTarget ?_, .found (slot.sound_occurrence text n)⟩
      rw [if_neg hcomment, Slot.placed_eq hwhole]
      exact .pure _

/-- **A lookup comes to an end, and to what the lookup in characters finds.** None of its cuts fails, and all it notes
is in order. -/
theorem answers_noted (block : String) (text : List Char) (path : KeyPath) :
    Answers text (noted block text path) (find? block text path) := by
  have hall := (nested_all text).sound
  rw [Span.inBytes, Span.all, byteOffset_length] at hall
  have htake : text.take text.length = text := List.take_length
  have hjudges : Judges text (text.take text.length) 0 (targetAttempt text (leftHandSide block path).toList)
      (candidate? (leftHandSide block path).toList) (judgeTarget text) := by
    rw [htake]
    exact judges_target text _
  have h := answers_rounds hjudges le_rfl (Nat.zero_le _) le_rfl
  rw [htake] at h
  exact .after (.note hall) h

end ManifestBump.Podspec

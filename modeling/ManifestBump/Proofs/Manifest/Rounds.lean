import ManifestBump.Manifest.Basic
import ManifestBump.Proofs.Json.Rounds
import ManifestBump.Proofs.Podspec.Rounds
import ManifestBump.Proofs.Yaml.Rounds

/-! Lookups in manifests that note what they do.

Whatever the format, the text and the path, a lookup comes to an end, and no cut of the text fails on the way. The
stretches it looks through lie inside of one another, its searches go strictly forward and stop at the end of their
text, and what it finds lies inside of the text (`Locator.noted_sound`). -/
namespace ManifestBump.Locator
open Text

/-- Looks for a path in a text, in bytes. -/
def noted (locator : Locator) (text : List Char) (path : KeyPath) : Noting (Option Occurrence) :=
  match locator with
  | .json => Json.noted text path
  | .yaml => Yaml.noted text path
  | .podspec block => Podspec.noted block text path

theorem answers_noted (locator : Locator) (text : List Char) (path : KeyPath) :
    Answers text (locator.noted text path) (locator.find? text path) := by
  cases locator with
  | json => exact Json.answers_noted text path
  | yaml => exact Yaml.answers_noted text path
  | podspec block => exact Podspec.answers_noted block text path

/-- **Every lookup comes to an end, and all that it notes is in order**, in every format and for every text. It comes to
the occurrence of the path, which lies inside of the text. -/
theorem noted_sound (locator : Locator) (text : List Char) (path : KeyPath) :
    ∃ notes, (locator.noted text path).run [] = some ((locator.find? text path).map (·.inBytes text), notes) ∧
      (∀ n ∈ notes, Note.Sound text n) ∧
      ∀ found ∈ locator.find? text path, Note.Sound text (.found (found.inBytes text)) := by
  obtain ⟨hends, hsound⟩ := answers_noted locator text path
  obtain ⟨notes, hrun, hnotes⟩ := hends []
  exact ⟨notes, hrun, hnotes, hsound⟩

/-- The key inside of an object is seen and passed over. -/
example : ((noted .json "\x7b\"é\": \x7b\"v\": 1\x7d, \"v\": 2\x7d".toList ⟨[], "v"⟩).run []).map (·.2) =
    some [.entered ⟨0, 24⟩ ⟨0, 24⟩, .started 0 24, .resumed 0 10 24, .started 10 24,
      .found ⟨⟨17, 23⟩, ⟨22, 23⟩⟩] := by
  decide +kernel

end ManifestBump.Locator

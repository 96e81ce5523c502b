import ManifestBump.Version.Basic

/-! Choosing a level from the labels of a pull request.

Exactly one of the labels must be a version label. The messages are addressed to whoever opened
the pull request. -/
namespace ManifestBump

/-- The label that selects each level. -/
structure LabelSet where
  patch : String
  minor : String
  major : String
deriving DecidableEq, Repr

/-- Why the labels select no level. -/
inductive LabelError where
  /-- None of them is a version label. -/
  | missing (expected : List String)
  /-- More than one is. -/
  | multiple (found : List String)
deriving DecidableEq, Repr

/-- The error in words. -/
def LabelError.message : LabelError → String
  | .missing expected =>
    "There is no version label on the pull request.\nPlease use one of the following: "
      ++ ", ".intercalate expected
  | .multiple _ => "There are multiple version labels on the pull request. Please use only one."

namespace LabelSet

/-- The labels used when none are configured. -/
def standard : LabelSet := ⟨"patch", "minor", "major"⟩

/-- The names, lowest level first. -/
def names (set : LabelSet) : List String := [set.patch, set.minor, set.major]

/-- The level a label selects; of two levels with one name, the lower. -/
def levelOf? (set : LabelSet) (label : String) : Option Level :=
  if label = set.patch then some .patch
  else if label = set.minor then some .minor
  else if label = set.major then some .major
  else none

/-- The version labels among some labels, each with its level. -/
def found (set : LabelSet) (labels : List String) : List (String × Level) :=
  labels.filterMap fun label => (set.levelOf? label).map (label, ·)

/-- The level of the only version label. -/
def decide (set : LabelSet) (labels : List String) : Except LabelError Level :=
  match set.found labels with
  | [] => .error (.missing set.names)
  | [(_, level)] => .ok level
  | many => .error (.multiple (many.map Prod.fst))

end LabelSet

end ManifestBump

import ManifestBump.Bump.Execute

/-! What later steps of a job may use: a line `name=value` for each output.

A comment of several lines would be read as several outputs, so it is left out. -/
namespace ManifestBump.Outcome

/-- The outputs by name. -/
def stepOutputs (o : Outcome) : List (String × String) :=
  [("version", o.version), ("has_changed", if o.hasChanged then "true" else "false")]
    ++ (o.comment.filter fun c => !c.toList.contains '\n').toList.map fun c => ("comment", c)

/-- The lines of the outputs. -/
def stepOutputText (o : Outcome) : String :=
  String.join (o.stepOutputs.map fun (name, value) => name ++ "=" ++ value ++ "\n")

end ManifestBump.Outcome

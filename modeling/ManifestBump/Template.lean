import ManifestBump.Text.Basic

/-! Message templates: `{old}` and `{new}` stand for the versions before and after a bump. -/
namespace ManifestBump.Template

/-- Stands for the version before. -/
def oldMark : List Char := "\x7bold\x7d".toList

/-- Stands for the version after. -/
def newMark : List Char := "\x7bnew\x7d".toList

/-- The message of a template: first the old version is filled in, then the new one. -/
def render (template old new : String) : String :=
  String.ofList <| Text.replaceAll newMark new.toList <|
    Text.replaceAll oldMark old.toList template.toList

end ManifestBump.Template

import ManifestBump.Path

/-! The formats of manifests, told from the extension of a file's name. -/
namespace ManifestBump

/-- A format whose values can be edited in place. -/
inductive Format where
  /-- With or without comments and trailing commas. -/
  | json
  /-- Block mappings. -/
  | yaml
  /-- Assignments on the variable of a `do |…|` block. -/
  | podspec
deriving DecidableEq, Repr

namespace Format

/-- The format's name. -/
def text : Format → String
  | .json => "json"
  | .yaml => "yaml"
  | .podspec => "podspec"

/-- The format of an extension, in any case of ASCII letters. -/
def ofExtension? (extension : String) : Option Format :=
  match extension.toList.map Char.toLower with
  | ['j', 's', 'o', 'n'] => some .json
  | ['y', 'a', 'm', 'l'] => some .yaml
  | ['y', 'm', 'l'] => some .yaml
  | ['p', 'o', 'd', 's', 'p', 'e', 'c'] => some .podspec
  | _ => none

/-- The format of a file's name. -/
def ofName? (name : String) : Option Format :=
  (Path.extension? name).bind ofExtension?

end Format

end ManifestBump

import ManifestBump.FileTree
import ManifestBump.Notation.Json.Value
import ManifestBump.Notation.Toml
import ManifestBump.Notation.Yaml

/-! The notations configuration may be written in. -/
namespace ManifestBump

/-- A way to write documents. -/
inductive Notation where
  | toml
  | yaml
  | json
deriving DecidableEq, Repr

namespace Notation

/-- The notation of a file, by its extension; whatever is not known otherwise is TOML. -/
def ofPath (path : String) : Notation :=
  match Path.extension? path with
  | some "yaml" | some "yml" => .yaml
  | some "json" => .json
  | _ => .toml

/-- The members of the table that a text says, if it is well formed and says one. -/
def parse? (n : Notation) (text : String) : Option (List (String × Document)) :=
  let document : Option Document :=
    match n with
    | .toml => Toml.parse? text.toList
    | .yaml => Yaml.parse? text.toList
    | .json => (Json.parse text.toList).toOption
  match document with
  | some (.table members) => some members
  | _ => none

/-- The members of the table that a file says. -/
def load? (tree : FileTree) (path : String) : Option (List (String × Document)) :=
  match tree.read path with
  | .ok text => (ofPath path).parse? text
  | .error _ => none

end Notation

end ManifestBump

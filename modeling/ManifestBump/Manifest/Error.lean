import ManifestBump.FileTree
import ManifestBump.KeyPath

/-! Why a manifest cannot be read or edited.

Each cause is final: the same text gives the same one again. A value that cannot be set leaves
the text as it was. -/
namespace ManifestBump

/-- Why a value would break out of its place. -/
inductive ValueFault where
  | lineBreak
  | quote
deriving DecidableEq, Repr

/-- The reason in words. -/
def ValueFault.message : ValueFault → String
  | .lineBreak => "line breaks are not allowed"
  | .quote => "quote characters are not allowed"

/-- What was looked for in vain. -/
inductive Sought where
  | key (path : String)
  | blockHeader
deriving DecidableEq, Repr

/-- The thing in words. -/
def Sought.text : Sought → String
  | .key path => "key `" ++ path ++ "`"
  | .blockHeader => "podspec `do |...|` block header"

/-- A manifest that cannot be read or edited. -/
inductive ManifestError where
  | invalidKeyPath (path : String) (fault : KeyPath.Fault)
  | notFound (what : Sought)
  | unsupportedFormat (name : String)
  | io (path : String) (fault : FileFault)
  | invalidValue (value : String) (fault : ValueFault)
deriving DecidableEq, Repr

/-- The error in words. -/
def ManifestError.message : ManifestError → String
  | .invalidKeyPath path fault => "invalid key path `" ++ path ++ "`: " ++ fault.message
  | .notFound what => what.text ++ " not found"
  | .unsupportedFormat name =>
    name ++ " isn't a type of file that is supported (expected .json, .yaml, .yml or .podspec)"
  | .io path fault => path ++ ": " ++ fault.message
  | .invalidValue value fault =>
    "value `" ++ value ++ "` cannot be written in place: " ++ fault.message

end ManifestBump

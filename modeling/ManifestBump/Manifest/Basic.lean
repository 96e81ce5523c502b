import ManifestBump.Manifest.Error
import ManifestBump.Manifest.Format
import ManifestBump.Manifest.Json
import ManifestBump.Manifest.Podspec
import ManifestBump.Manifest.Yaml

/-! Manifests: texts in which single values are read and replaced.

No document tree is built. A lookup gives the stretch a value takes in the raw text, and setting
a value exchanges that stretch and nothing else. -/
namespace ManifestBump

/-- How the values of a manifest are found. -/
inductive Locator where
  | json
  | yaml
  | podspec (block : String)
deriving DecidableEq, Repr

namespace Locator

/-- The locator for a text. A podspec has to name its block variable. -/
def ofText (format : Format) (text : String) : Except ManifestError Locator :=
  match format with
  | .json => .ok .json
  | .yaml => .ok .yaml
  | .podspec =>
    match Podspec.discover? text.toList with
    | some block => .ok (.podspec block)
    | none => .error (.notFound .blockHeader)

/-- The format a locator is for. -/
def format : Locator → Format
  | .json => .json
  | .yaml => .yaml
  | .podspec _ => .podspec

/-- The occurrence a path names. -/
def find? (locator : Locator) (text : List Char) (path : KeyPath) : Option Text.Occurrence :=
  match locator with
  | .json => Json.find? text path
  | .yaml => Yaml.find? text path
  | .podspec block => Podspec.find? block text path

/-- How a path is called when it is not there. -/
def keyText (locator : Locator) (path : KeyPath) : String :=
  match locator with
  | .podspec block => Podspec.leftHandSide block path
  | _ => path.text

/-- The occurrence a path names, or that it names none. -/
def resolve (locator : Locator) (text : String) (path : KeyPath) :
    Except ManifestError Text.Occurrence :=
  match locator.find? text.toList path with
  | some occurrence => .ok occurrence
  | none => .error (.notFound (.key (locator.keyText path)))

end Locator

/-- A text and how its values are found; the latter is fixed when the text is first seen. -/
structure Manifest where
  content : String
  locator : Locator
deriving DecidableEq, Repr

namespace Manifest

/-- A text in a format. -/
def ofText (format : Format) (content : String) : Except ManifestError Manifest := do
  return ⟨content, ← Locator.ofText format content⟩

/-- A text whose format the name tells. -/
def ofNamedText (name content : String) : Except ManifestError Manifest :=
  match Format.ofName? name with
  | some format => ofText format content
  | none => .error (.unsupportedFormat name)

/-- The format. -/
def format (m : Manifest) : Format := m.locator.format

/-- Reads a dotted path. -/
def parsePath (key : String) : Except ManifestError KeyPath :=
  match KeyPath.parse key with
  | .ok path => .ok path
  | .error fault => .error (.invalidKeyPath key fault)

/-- Where the value of a key is. -/
def locate (m : Manifest) (key : String) : Except ManifestError Text.Occurrence := do
  m.locator.resolve m.content (← parsePath key)

/-- The value of a key, without quotes around it. -/
def get (m : Manifest) (key : String) : Except ManifestError String := do
  let occurrence ← m.locate key
  return String.ofList (occurrence.value.slice m.content.toList)

/-- What would end the value early, if anything does. -/
def valueFault? (value : String) : Option ValueFault :=
  if value.toList.any fun c => c == '\n' || c == '\r' then some .lineBreak
  else if value.toList.any fun c => c == '"' || c == '\'' then some .quote
  else none

/-- Refuses a value that would break out of its place. -/
def checkValue (value : String) : Except ManifestError Unit :=
  match valueFault? value with
  | some fault => .error (.invalidValue value fault)
  | none => .ok ()

/-- The manifest with another value at a key, and every other character as it was. -/
def set (m : Manifest) (key value : String) : Except ManifestError Manifest := do
  let path ← parsePath key
  checkValue value
  let occurrence ← m.locator.resolve m.content path
  let edited := occurrence.value.splice m.content.toList value.toList
  return { m with content := String.ofList edited }

end Manifest

end ManifestBump

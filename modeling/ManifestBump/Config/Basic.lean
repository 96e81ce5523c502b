import ManifestBump.Label

/-! Configuration: which value to bump, what labels mean, and what to do besides.

Everything is optional, and defaults are filled in where a setting is used. So a section that is
missing and one that sets nothing mean the same. -/
namespace ManifestBump

/-- How much is logged. -/
inductive LogLevel where
  | debug
  | info
  | warn
  | error
deriving DecidableEq, Repr

/-- The level's name. -/
def LogLevel.text : LogLevel → String
  | .debug => "debug"
  | .info => "info"
  | .warn => "warn"
  | .error => "error"

/-- The level of a name. -/
def LogLevel.ofText? (name : String) : Option LogLevel :=
  [LogLevel.debug, .info, .warn, .error].find? (·.text == name)

namespace Config

/-- The value to bump. -/
structure Target where
  file : Option String := none
  key : Option String := none
deriving DecidableEq, Repr

/-- The label that selects each level. -/
structure Labels where
  patch : Option String := none
  minor : Option String := none
  major : Option String := none
deriving DecidableEq, Repr

/-- Where the version to start from is found. -/
structure Reference where
  branch : Option String := none
  useTag : Option Bool := none
deriving DecidableEq, Repr

/-- Whether and how to comment. -/
structure Comment where
  enabled : Option Bool := none
  message : Option String := none
deriving DecidableEq, Repr

/-- Whether and how to commit. -/
structure Commit where
  enabled : Option Bool := none
  message : Option String := none
  username : Option String := none
  email : Option String := none
deriving DecidableEq, Repr

end Config

/-- All settings, by section. -/
structure Config where
  logLevel : LogLevel := .info
  logDir : Option String := none
  target : Option Config.Target := none
  labels : Option Config.Labels := none
  reference : Option Config.Reference := none
  comment : Option Config.Comment := none
  commit : Option Config.Commit := none
deriving DecidableEq, Repr

namespace Config

/-! ### Settings with their defaults -/

/-- The manifest to edit. -/
def targetFile? (c : Config) : Option String := c.target.bind Target.file

/-- The key of the version. -/
def targetKey (c : Config) : String := (c.target.bind Target.key).getD "version"

/-- The branch that has the version to start from. -/
def referenceBranch (c : Config) : String := (c.reference.bind Reference.branch).getD "main"

/-- Whether the latest tag has it instead. -/
def usesTag (c : Config) : Bool := (c.reference.bind Reference.useTag).getD false

/-- Whether a comment is made. -/
def comments (c : Config) : Bool := (c.comment.bind Comment.enabled).getD false

/-- The template of the comment. -/
def commentTemplate (c : Config) : String :=
  (c.comment.bind Comment.message).getD "Version bumped from \x7bold\x7d to \x7bnew\x7d."

/-- Whether a commit is made. -/
def commits (c : Config) : Bool := (c.commit.bind Commit.enabled).getD false

/-- The template of the commit message. -/
def commitTemplate (c : Config) : String :=
  (c.commit.bind Commit.message).getD "Bump version from \x7bold\x7d to \x7bnew\x7d"

/-- The labels, where those not set are the standard ones. -/
def labelSet (c : Config) : LabelSet :=
  let s := LabelSet.standard
  ⟨(c.labels.bind Labels.patch).getD s.patch,
   (c.labels.bind Labels.minor).getD s.minor,
   (c.labels.bind Labels.major).getD s.major⟩

end Config

end ManifestBump

/-! The switches of the command line. -/
namespace ManifestBump.CommandLine

/-- A switch. -/
inductive Switch where
  | config
  | chdir
  | quiet
  | verbose
  | color
  | json
  | help
  | version
  | dryRun
  | label
  | event
  | file
  | key
  | referenceBranch
  | useTag
  | head
  | commit
  | comment
deriving DecidableEq, Repr

namespace Switch

/-- The long name. -/
def long : Switch → String
  | .config => "config"
  | .chdir => "chdir"
  | .quiet => "quiet"
  | .verbose => "verbose"
  | .color => "color"
  | .json => "json"
  | .help => "help"
  | .version => "version"
  | .dryRun => "dry-run"
  | .label => "label"
  | .event => "event"
  | .file => "file"
  | .key => "key"
  | .referenceBranch => "reference-branch"
  | .useTag => "use-tag"
  | .head => "head"
  | .commit => "commit"
  | .comment => "comment"

/-- The letter, if there is one. -/
def letter? : Switch → Option Char
  | .config => some 'c'
  | .chdir => some 'C'
  | .quiet => some 'q'
  | .verbose => some 'v'
  | .help => some 'h'
  | .version => some 'V'
  | _ => none

/-- Whether a value belongs to it. -/
def takesValue : Switch → Bool
  | .config | .chdir | .color | .label | .event | .file | .key | .referenceBranch | .head => true
  | _ => false

/-- Whether it may be given more than once. -/
def repeats : Switch → Bool
  | .verbose | .label => true
  | _ => false

/-- Whether a value will do. -/
def accepts (switch : Switch) (value : String) : Bool :=
  match switch with
  | .config | .chdir => !value.isEmpty
  | .color => ["auto", "always", "never"].contains value
  | _ => true

/-- The switches that every command knows. -/
def everywhere : List Switch := [.config, .chdir, .quiet, .verbose, .color, .json, .help]

end Switch

end ManifestBump.CommandLine

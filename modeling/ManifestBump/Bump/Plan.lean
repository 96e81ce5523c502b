import ManifestBump.Config.Basic
import ManifestBump.Manifest.Storage
import ManifestBump.Remote.Basic
import ManifestBump.Version.Message
import ManifestBump.Version.Reader

/-! Planning a bump.

The next version is made from the one at the reference, not from the one in the manifest. So to
plan a bump again after it has been done plans no change. -/
namespace ManifestBump

/-- Why a bump cannot be planned or done. -/
inductive BumpError where
  | noTargetFile
  | manifest (file : String) (e : ManifestError)
  | version (e : VersionError)
  | labels (e : LabelError)
  | remote (e : RemoteError)
deriving DecidableEq, Repr

namespace BumpError

/-- The error in words. -/
def message : BumpError → String
  | .noTargetFile => "no target file configured (set `target.file` or pass --file)"
  | .manifest file e => file ++ ": " ++ e.message
  | .version e => e.message
  | .labels e => e.message
  | .remote e => e.message

/-- What to tell whoever opened the pull request, where other labels would help. -/
def comment? : BumpError → Option String
  | .labels e => some e.message
  | _ => none

end BumpError

/-- A bump, ready to be done. -/
structure Plan where
  file : String
  key : String
  /-- The version in the manifest. -/
  current : Release
  /-- The version at the reference, if there is one. -/
  reference : Option Release
  level : Level
  next : Release
  /-- The version in the manifest as it is written there. -/
  currentText : String
  manifest : Manifest
  commitTemplate : Option String
  commentTemplate : Option String
deriving DecidableEq, Repr

namespace Plan

/-- Whether the manifest would change. Versions count as they are written, so `1.2` differs from
`1.2.0`. -/
def hasChanged (p : Plan) : Bool := p.next.text != p.currentText

/-- A version as a manifest or tag writes it. -/
def parseRelease (text : String) : Except BumpError Release :=
  (Release.parse text).mapError .version

/-- The version in a file at the reference. That there is no such file or key is no error. -/
def releaseIn (file key text : String) : Except BumpError (Option Release) :=
  match (do (← Manifest.ofNamedText file text).get key : Except ManifestError String) with
  | .ok value => (parseRelease value).map some
  | .error (.notFound _) => .ok none
  | .error e => .error (.manifest file e)

/-- The version at the reference: that of the latest tag, or of the manifest on a branch. -/
def referenceRelease (config : Config) (file key : String) (source : Source) :
    Except BumpError (Option Release) :=
  if config.usesTag then
    match source.latestTag with
    | .ok (some tag) => (parseRelease tag).map some
    | .ok none => .ok none
    | .error e => .error (.remote e)
  else
    match source.fetch file config.referenceBranch with
    | .ok text => releaseIn file key text
    | .error (.notFound _ _) => .ok none
    | .error e => .error (.remote e)

/-- The bump that a configuration and the labels of a pull request call for. -/
def make (tree : FileTree) (root : String) (config : Config) (labels : List String)
    (source : Source) : Except BumpError Plan := do
  let some file := config.targetFile? | .error .noTargetFile
  let key := config.targetKey
  let manifest ← (Manifest.load tree (Path.join root file)).mapError (.manifest file)
  let currentText ← (manifest.get key).mapError (.manifest file)
  let current ← parseRelease currentText
  let level ← (config.labelSet.decide labels).mapError .labels
  let reference ← referenceRelease config file key source
  let next ← ((reference.getD current).bump level).mapError .version
  return {
    file, key, current, reference, level
    next := { next with marked := current.marked }
    currentText, manifest
    commitTemplate := if config.commits then some config.commitTemplate else none
    commentTemplate := if config.comments then some config.commentTemplate else none }

end Plan

end ManifestBump

import ManifestBump.Manifest.Basic

/-! Manifests in a file tree.

The file is read before its name is looked at, so a file that is not there is reported as such
whatever it is called. -/
namespace ManifestBump.Manifest

/-- The manifest at a path; the path's extension tells the format. -/
def load (tree : FileTree) (path : String) : Except ManifestError Manifest :=
  match tree.read path with
  | .ok content => ofNamedText path content
  | .error fault => .error (.io path fault)

/-- The tree after the manifest has been written to a path. -/
def save (m : Manifest) (tree : FileTree) (path : String) : Except ManifestError FileTree :=
  match tree.write path m.content with
  | .ok tree => .ok tree
  | .error fault => .error (.io path fault)

end ManifestBump.Manifest

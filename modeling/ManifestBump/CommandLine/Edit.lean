import ManifestBump.CommandLine.Session
import ManifestBump.CommandLine.Style
import ManifestBump.Manifest.Storage
import ManifestBump.Notation.Json.Pretty

/-! The commands that read and replace a single value. -/
namespace ManifestBump.CommandLine
open Notation.Json

/-- Prints the value of a key. -/
def get (s : Session) (json : Bool) (file key : String) : Reply :=
  let path := s.absolute file
  match Manifest.load s.tree path with
  | .error e => s.failed ("failed to open " ++ path) (manifestCauses e)
  | .ok m =>
    match m.get key with
    | .error e => s.failed ("failed to read `" ++ key ++ "` from " ++ file) (manifestCauses e)
    | .ok value =>
      if json then
        let tree : Tree := .object
          [("file", .text file), ("format", .text m.format.text), ("key", .text key),
           ("value", .text value)]
        s.done (tree.pretty ++ "\n")
      else s.done (value ++ "\n")

/-- What is printed about a value that was replaced. -/
def setOutput (json : Bool) (file key previous value : String) (dryRun : Bool) (edited : Manifest) :
    String :=
  if json then
    let content : List (String × Tree) :=
      if dryRun then [("content", .text edited.content)] else []
    let tree : Tree := .object
      ([("file", .text file), ("key", .text key), ("previous", .text previous),
        ("value", .text value), ("dry_run", .bool dryRun)] ++ content)
    tree.pretty ++ "\n"
  else if dryRun then edited.content
  else
    Style.green "✓" ++ " " ++ Style.bold key ++ ": " ++ Style.dimmed previous ++ " → "
      ++ Style.bold (Style.green value) ++ "\n"

/-- Replaces the value of a key; a dry run prints the whole manifest instead of saving it. -/
def set (s : Session) (json : Bool) (file key value : String) (dryRun : Bool) : Reply :=
  let path := s.absolute file
  match Manifest.load s.tree path with
  | .error e => s.failed ("failed to open " ++ path) (manifestCauses e)
  | .ok m =>
    match m.get key with
    | .error e => s.failed ("failed to read `" ++ key ++ "` from " ++ file) (manifestCauses e)
    | .ok previous =>
      match m.set key value with
      | .error e => s.failed ("failed to set `" ++ key ++ "` in " ++ file) (manifestCauses e)
      | .ok edited =>
        let output := setOutput json file key previous value dryRun edited
        if dryRun then s.done output
        else
          match edited.save s.tree path with
          | .error e => s.failed ("failed to save " ++ path) (manifestCauses e)
          | .ok tree => { s with tree }.done output

end ManifestBump.CommandLine

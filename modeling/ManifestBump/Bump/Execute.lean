import ManifestBump.Bump.Plan
import ManifestBump.Template

/-! Doing a bump: the manifest is edited and saved, then handed over for a commit if that is
wanted, and a comment is made. -/
namespace ManifestBump

/-- What is decided when a bump is done, not when it is planned. -/
structure BumpOptions where
  dryRun : Bool := false
  /-- The branch to commit to; without one, there is no commit. -/
  head : Option String := none
deriving DecidableEq, Repr

/-- What a bump comes to. -/
structure Outcome where
  previous : String
  version : String
  hasChanged : Bool
  level : Level
  file : String
  key : String
  commit : Option String
  comment : Option String
  dryRun : Bool
deriving DecidableEq, Repr

/-- The files and the state of the sink behind a bump, and what it came to. -/
structure Execution (σ : Type) where
  tree : FileTree
  state : σ
  result : Except BumpError Outcome

namespace Plan
variable {σ : Type}

/-- The outcome, as far as it is known before anything is done. -/
def outcome (p : Plan) (options : BumpOptions) : Outcome where
  previous := p.currentText
  version := p.next.text
  hasChanged := p.hasChanged
  level := p.level
  file := p.file
  key := p.key
  commit := none
  comment := none
  dryRun := options.dryRun

/-- A message from a template. -/
def render (p : Plan) (template : String) : String :=
  Template.render template p.currentText p.next.text

/-- What is handed over for a commit, if one is wanted and there is a branch for it. -/
def delivery? (p : Plan) (options : BumpOptions) (edited : Manifest) : Option Delivery := do
  let template ← p.commitTemplate
  let head ← options.head
  return ⟨p.file, head, edited.content, p.render template⟩

/-- Hands the edited manifest over, if there is a sink and something to hand over. -/
def deliver (p : Plan) (options : BumpOptions) (edited : Manifest) (sink : Option (Sink σ))
    (tree : FileTree) (state : σ) : Execution σ :=
  let outcome := { p.outcome options with comment := p.commentTemplate.map p.render }
  match p.delivery? options edited, sink with
  | some delivery, some sink =>
    let receipt := sink.accept tree state delivery
    ⟨receipt.tree, receipt.state,
      match receipt.result with
      | .ok commit => .ok { outcome with commit := some commit }
      | .error e => .error (.remote e)⟩
  | _, _ => ⟨tree, state, .ok outcome⟩

/-- Does the bump in the directory `root`. A dry run touches nothing. -/
def execute (p : Plan) (root : String) (options : BumpOptions) (sink : Option (Sink σ))
    (tree : FileTree) (state : σ) : Execution σ :=
  if p.hasChanged then
    match p.manifest.set p.key p.next.text with
    | .error e => ⟨tree, state, .error (.manifest p.file e)⟩
    | .ok edited =>
      if options.dryRun then
        ⟨tree, state, .ok { p.outcome options with comment := p.commentTemplate.map p.render }⟩
      else
        match edited.save tree (Path.join root p.file) with
        | .error e => ⟨tree, state, .error (.manifest p.file e)⟩
        | .ok tree => p.deliver options edited sink tree state
  else ⟨tree, state, .ok (p.outcome options)⟩

end Plan

end ManifestBump

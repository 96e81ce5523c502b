import ManifestBump.Bump.Execute
import ManifestBump.Proofs.Bump.Plan
import ManifestBump.Proofs.Files
import ManifestBump.Remote.Checkout

/-! What a bump does to the manifest.

`Plan.execute_cases` lists the ways a bump can end. A bump that saves the manifest writes the next version
to it before anything is handed over, and a sink that keeps the file it is handed (`Sink.Keeps`) leaves
it so. What is planned from there is no change (`Plan.make_of_saved`), and to do it does nothing
(`Plan.execute_of_unchanged`). -/
namespace ManifestBump

variable {σ : Type}

/-! ### Sinks that keep what they are handed -/

/-- A file that reads as what is delivered still does when the delivery is over. -/
def Sink.Keeps (sink : Sink σ) (path : String) : Prop :=
  ∀ tree state delivery, tree.read path = .ok delivery.content →
    (sink.accept tree state delivery).tree.read path = .ok delivery.content

theorem Sink.InMemory.keeps {sink : Sink σ} (h : sink.InMemory) (path : String) : sink.Keeps path := by
  intro tree state delivery hread
  rwa [h tree state delivery]

/-- A checkout writes nothing but what is delivered. -/
theorem Checkout.keeps (c : Checkout) (path : String) : c.sink.Keeps path := by
  intro tree repository delivery hread
  simp only [sink, persist]
  split
  · exact hread
  · split
    · exact hread
    · rename_i after hwrite
      have hafter : after.read path = .ok delivery.content :=
        (FileTree.read_of_write_of_read hwrite hread).elim id id
      split
      · exact hafter
      · exact hafter

namespace Plan
variable {p : Plan} {root : String} {options : BumpOptions} {sink : Option (Sink σ)} {tree : FileTree} {state : σ}

/-! ### How a bump ends -/

/-- The manifest has been saved with the next version. -/
structure Saved (p : Plan) (root : String) (options : BumpOptions) (tree : FileTree) (edited : Manifest)
    (saved : FileTree) : Prop where
  changed : p.hasChanged = true
  wet : options.dryRun = false
  set : p.manifest.set p.key p.next.text = .ok edited
  save : edited.save tree (Path.join root p.file) = .ok saved

/-- What a change of the manifest comes to, as long as there is no commit. -/
def changedOutcome (p : Plan) (options : BumpOptions) : Outcome :=
  { p.outcome options with comment := p.commentTemplate.map p.render }

/-- The ways a bump can end. -/
inductive Executed (p : Plan) (root : String) (options : BumpOptions) (sink : Option (Sink σ)) (tree : FileTree)
    (state : σ) : Execution σ → Prop where
  | unchanged (h : p.hasChanged = false) :
    Executed p root options sink tree state ⟨tree, state, .ok (p.outcome options)⟩
  | refused {fault : ManifestError} :
    Executed p root options sink tree state ⟨tree, state, .error (.manifest p.file fault)⟩
  | dry (h : options.dryRun = true) (hchanged : p.hasChanged = true) :
    Executed p root options sink tree state ⟨tree, state, .ok (p.changedOutcome options)⟩
  | saved {edited : Manifest} {saved : FileTree} (h : p.Saved root options tree edited saved)
    (hkept : p.delivery? options edited = none ∨ sink = none) :
    Executed p root options sink tree state ⟨saved, state, .ok (p.changedOutcome options)⟩
  | delivered {edited : Manifest} {saved : FileTree} (h : p.Saved root options tree edited saved)
    {delivery : Delivery} (hdelivery : p.delivery? options edited = some delivery) {s : Sink σ}
    (hsink : sink = some s) {commit : String} (haccepted : (s.accept saved state delivery).result = .ok commit) :
    Executed p root options sink tree state ⟨(s.accept saved state delivery).tree,
      (s.accept saved state delivery).state, .ok { p.changedOutcome options with commit := some commit }⟩
  | undelivered {edited : Manifest} {saved : FileTree} (h : p.Saved root options tree edited saved)
    {delivery : Delivery} (hdelivery : p.delivery? options edited = some delivery) {s : Sink σ}
    (hsink : sink = some s)
    {fault : RemoteError} (hfault : (s.accept saved state delivery).result = .error fault) :
    Executed p root options sink tree state
      ⟨(s.accept saved state delivery).tree, (s.accept saved state delivery).state, .error (.remote fault)⟩

/-- **A bump ends in one of these ways.** -/
theorem execute_cases (p : Plan) (root : String) (options : BumpOptions) (sink : Option (Sink σ)) (tree : FileTree)
    (state : σ) : Executed p root options sink tree state (p.execute root options sink tree state) := by
  unfold execute
  split
  · rename_i hchanged
    split
    · exact .refused
    · rename_i edited hset
      split
      · rename_i hdry
        exact .dry hdry hchanged
      · rename_i hwet
        split
        · exact .refused
        · rename_i saved hsave
          have h : p.Saved root options tree edited saved := ⟨hchanged, by simpa using hwet, hset, hsave⟩
          unfold deliver
          cases hdelivery : p.delivery? options edited with
          | none => exact .saved h (.inl hdelivery)
          | some delivery =>
            cases sink with
            | none => exact .saved h (.inr rfl)
            | some s =>
              cases hresult : (s.accept saved state delivery).result with
              | ok commit =>
                simp only [hresult]
                exact .delivered h hdelivery rfl hresult
              | error fault =>
                simp only [hresult]
                exact .undelivered h hdelivery rfl hresult
  · rename_i hunchanged
    exact .unchanged (by simpa using hunchanged)

/-- A plan without a change does nothing. -/
theorem execute_of_unchanged (h : p.hasChanged = false) (root : String) (options : BumpOptions)
    (sink : Option (Sink σ)) (tree : FileTree) (state : σ) :
    p.execute root options sink tree state = ⟨tree, state, .ok (p.outcome options)⟩ := by
  unfold execute
  rw [if_neg (by simp [h])]

theorem content_of_delivery {edited : Manifest} {delivery : Delivery}
    (h : p.delivery? options edited = some delivery) : delivery.content = edited.content := by
  obtain ⟨template, -, h⟩ := Option.bind_eq_some_iff.mp h
  obtain ⟨head, -, h⟩ := Option.bind_eq_some_iff.mp h
  cases h
  rfl

/-- The saved manifest is on disk. -/
theorem Saved.read {edited : Manifest} {saved : FileTree} (h : p.Saved root options tree edited saved) :
    saved.read (Path.join root p.file) = .ok edited.content :=
  FileTree.read_of_write (Manifest.save_eq_ok_iff.mp h.save)

/-- A sink that keeps it leaves it there. -/
theorem Saved.read_accept {edited : Manifest} {saved : FileTree} (h : p.Saved root options tree edited saved)
    {delivery : Delivery} (hdelivery : p.delivery? options edited = some delivery) {s : Sink σ}
    (hkeeps : s.Keeps (Path.join root p.file)) (state : σ) :
    (s.accept saved state delivery).tree.read (Path.join root p.file) = .ok edited.content := by
  have hcontent := content_of_delivery hdelivery
  rw [← hcontent]
  exact hkeeps saved state delivery (by rw [hcontent, h.read])

/-! ### Planning again -/

variable {config : Config} {labels : List String} {source : Source}

/-- A plan that leads from a plan's next version to the same version, in some later tree. -/
structure Settled (p again : Plan) : Prop where
  next : again.next = p.next
  unchanged : again.hasChanged = false

/-- **Once the manifest has been saved, no change is planned.** -/
theorem make_of_saved (hplan : make tree root config labels source = .ok p) (href : p.reference.isSome)
    (hline : p.manifest.locator.OneLine config.targetKey) {before : FileTree} {edited : Manifest} {saved : FileTree}
    (h : p.Saved root options before edited saved) {later : FileTree}
    (hread : later.read (Path.join root p.file) = .ok edited.content) :
    ∃ again, make later root config labels source = .ok again ∧ p.Settled again := by
  have hmade := make_eq_ok_iff.mp hplan
  rw [← hmade.key] at hline
  refine ⟨_, make_of_set hmade href hline h.set hread, rfl, ?_⟩
  simp [hasChanged]

end Plan

/-! ### Single files -/

/-- A source whose latest tag is a version. -/
def Source.tagged (tag : String) : Source :=
  ⟨fun path reference => .error (.notFound path reference), .ok (some tag)⟩

/-- A sink that always gives the same answer, and does nothing else. -/
def Sink.answering (answer : Except RemoteError String) : Sink Unit := ⟨fun tree state _ => ⟨tree, state, answer⟩⟩

theorem Sink.answering_inMemory (answer : Except RemoteError String) : (Sink.answering answer).InMemory :=
  fun _ _ _ => rfl

/-- A configuration for a key in a file, with the latest tag as reference, that asks for a commit. -/
def Config.tagging (file key : String) : Config :=
  { target := some { file := some file, key := some key }
    reference := some { useTag := some true }
    commit := some { enabled := some true } }

namespace Plan

/-- A patch on the version `1.0.0`. -/
def patching (file key : String) (manifest : Manifest) (currentText : String) (current : Version) : Plan where
  file := file
  key := key
  current := ⟨current, false⟩
  reference := some ⟨.plain 1 0 0, false⟩
  level := .patch
  next := ⟨.plain 1 0 1, false⟩
  currentText := currentText
  manifest := manifest
  commitTemplate := some "Bump version from \x7bold\x7d to \x7bnew\x7d"
  commentTemplate := none

/-! ### Bumps done twice -/

section Idempotence
variable {p : Plan} {root : String} {options : BumpOptions} {sink : Option (Sink σ)} {tree : FileTree} {state : σ}
  {config : Config} {labels : List String} {source : Source}

/-- **A bump is idempotent.** After a bump against a reference has been done, the same bump is planned
without a change, and to do it touches neither files nor sinks. -/
theorem bump_idempotent (hplan : make tree root config labels source = .ok p) (href : p.reference.isSome)
    (hline : p.manifest.locator.OneLine config.targetKey) (hwet : options.dryRun = false)
    (hkeeps : ∀ s ∈ sink, s.Keeps (Path.join root p.file)) {outcome : Outcome}
    (hdone : (p.execute root options sink tree state).result = .ok outcome) :
    ∃ again, make (p.execute root options sink tree state).tree root config labels source = .ok again ∧
      again.next = p.next ∧ again.hasChanged = false ∧
      ∀ {τ : Type} (options' : BumpOptions) (sink' : Option (Sink τ)) (tree' : FileTree) (state' : τ),
        again.execute root options' sink' tree' state' = ⟨tree', state', .ok (again.outcome options')⟩ := by
  have hagain : ∃ again, make (p.execute root options sink tree state).tree root config labels source = .ok again ∧
      p.Settled again := by
    have hcases := execute_cases p root options sink tree state
    generalize p.execute root options sink tree state = execution at hcases hdone
    cases hcases with
    | unchanged h => exact ⟨p, hplan, rfl, h⟩
    | refused => cases hdone
    | dry h =>
      rw [hwet] at h
      cases h
    | saved h => exact make_of_saved hplan href hline h h.read
    | delivered h hdelivery hsink =>
      exact make_of_saved hplan href hline h (h.read_accept hdelivery (hkeeps _ hsink) _)
    | undelivered h hdelivery hsink hfault => cases hdone
  obtain ⟨again, hmake, hnext, hunchanged⟩ := hagain
  refine ⟨again, hmake, hnext, hunchanged, ?_⟩
  intro τ options' sink' tree' state'
  exact execute_of_unchanged hunchanged root options' sink' tree' state'

end Idempotence

/-- A chart with a version in it. -/
def chart : FileTree := .single "chart.yaml" "app:\n  version: 1.0.0 # app\n"

/-- A patch of the chart. -/
def chartPlan : Plan :=
  patching "chart.yaml" "app.version" ⟨"app:\n  version: 1.0.0 # app\n", .yaml⟩ "1.0.0" (.plain 1 0 0)

theorem make_chart : make chart "" (.tagging "chart.yaml" "app.version") ["patch"] (.tagged "1.0.0") = .ok chartPlan := by
  decide +kernel

theorem execute_chart : (chartPlan.execute "" ⟨false, some "main"⟩ (some (.answering (.ok "c1"))) chart ()).result =
    .ok ⟨"1.0.0", "1.0.1", true, .patch, "chart.yaml", "app.version", some "c1", none, false⟩ := by
  decide +kernel

theorem bump_idempotent_chart :
    ∃ again, make (chartPlan.execute "" ⟨false, some "main"⟩ (some (.answering (.ok "c1"))) chart ()).tree ""
        (.tagging "chart.yaml" "app.version") ["patch"] (.tagged "1.0.0") = .ok again ∧
      again.next = ⟨.plain 1 0 1, false⟩ ∧ again.hasChanged = false ∧
      ∀ {τ : Type} (options' : BumpOptions) (sink' : Option (Sink τ)) (tree' : FileTree) (state' : τ),
        again.execute "" options' sink' tree' state' = ⟨tree', state', .ok (again.outcome options')⟩ := by
  have hkeeps : ∀ s ∈ some (Sink.answering (.ok "c1")), s.Keeps (Path.join "" chartPlan.file) := by
    rintro s ⟨⟩
    exact (Sink.answering_inMemory _).keeps _
  exact bump_idempotent make_chart rfl (fun _ => by decide +kernel) rfl hkeeps execute_chart

/-- A key that takes four lines. -/
def wideKey : String := " w: 1\n   w: 1\n  w: 1\n   w"

/-- A manifest with that key on many of its lines. -/
def wideText (value last : String) : String :=
  "z: 0\n   w:\n w: 1\n   w: 1\n  w: 1\n   w: 1\n   w: 1\n  w: 1\n   w: " ++ value ++
    "\n   w: 1\n  w: 1\n   w: 1\n  w: 1\n   w: " ++ last ++ "\n"

/-- A tree with that manifest. -/
def wide : FileTree := .single "m.yaml" (wideText "1" "7")

/-- A configuration for that key, under another one. -/
def wideConfig : Config := .tagging "m.yaml" ("   w." ++ wideKey)

/-- A patch of that key. -/
def widePlan (value currentText : String) (current : Version) : Plan :=
  patching "m.yaml" ("   w." ++ wideKey) ⟨wideText value "7", .yaml⟩ currentText current

/-- A sink that makes its commit and puts other files back. -/
def restoring (files : FileTree) : Sink Unit := ⟨fun _ state _ => ⟨files, state, .ok "c1"⟩⟩

/-- **A bump need not be idempotent if its key takes several lines, or if the sink takes the edit back.** The line
of the value belongs to the wide key where that stands at a deeper indentation, and what stands there hides the last
line. Once the value is another, the key stands there no longer, and the last line is found. -/
theorem bump_wide_twice :
    (make wide "" wideConfig ["patch"] (.tagged "1.0.0") = .ok (widePlan "1" "1" (.plain 1 0 0)) ∧
      ((widePlan "1" "1" (.plain 1 0 0)).execute "" ⟨false, none⟩ (none : Option (Sink Unit)) wide ()).result =
        .ok ⟨"1", "1.0.1", true, .patch, "m.yaml", "   w." ++ wideKey, none, none, false⟩ ∧
      make ((widePlan "1" "1" (.plain 1 0 0)).execute "" ⟨false, none⟩ (none : Option (Sink Unit)) wide ()).tree ""
        wideConfig ["patch"] (.tagged "1.0.0") = .ok (widePlan "1.0.1" "7" (.plain 7 0 0)) ∧
      (widePlan "1.0.1" "7" (.plain 7 0 0)).hasChanged = true) ∧
    make chart "" (.tagging "chart.yaml" "app.version") ["patch"] (.tagged "1.0.0") = .ok chartPlan ∧
      (chartPlan.execute "" ⟨false, some "main"⟩ (some (restoring chart)) chart ()).result =
        .ok ⟨"1.0.0", "1.0.1", true, .patch, "chart.yaml", "app.version", some "c1", none, false⟩ ∧
      make (chartPlan.execute "" ⟨false, some "main"⟩ (some (restoring chart)) chart ()).tree ""
        (.tagging "chart.yaml" "app.version") ["patch"] (.tagged "1.0.0") = .ok chartPlan ∧
      chartPlan.hasChanged = true := by
  refine ⟨?_, make_chart, ?_, make_chart, rfl⟩ <;> decide +kernel

/-! ### Bumps that fail -/

section Failure
variable {p : Plan} {root : String} {options : BumpOptions} {sink : Option (Sink σ)} {tree : FileTree} {state : σ}

end Failure

/-- A sink that takes nothing. -/
def refusing : Sink Unit := .answering (.error (.branchMismatch "main" "x"))

end Plan
end ManifestBump

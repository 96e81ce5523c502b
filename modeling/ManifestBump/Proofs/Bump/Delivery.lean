import ManifestBump.CommandLine.Bump
import ManifestBump.Proofs.Bump.Execute

/-! What a bump hands over.

A sink with a record (`Sink.recorded`) behaves as the sink it is made from, and its record tells what it was handed and
when (`Plan.execute_recorded`). A dry run hands nothing over and comes to what the bump would come to
(`Plan.execute_dry`). A bump hands over what it has saved, once and only if a commit is wanted
(`Plan.execute_accounted`); whether that is still on disk behind it is up to the sink
(`Plan.chart_not_as_committed`). -/
namespace ManifestBump

variable {σ : Type}

/-! ### Sinks with a record -/

/-- A delivery that a sink was given: the files at that moment, what was delivered, and what the sink answered. -/
structure Handover where
  tree : FileTree
  delivery : Delivery
  answer : Except RemoteError String

/-- The sink, with a record of what it is given. -/
def Sink.recorded (sink : Sink σ) : Sink (σ × List Handover) where
  accept tree state delivery :=
    let receipt := sink.accept tree state.1 delivery
    ⟨receipt.tree, (receipt.state, state.2 ++ [⟨tree, delivery, receipt.result⟩]), receipt.result⟩

namespace Plan
variable {p : Plan} {root : String} {options : BumpOptions} {sink : Option (Sink σ)} {tree : FileTree} {state : σ}

/-- What a bump hands over, in order. -/
def handovers (p : Plan) (root : String) (options : BumpOptions) (sink : Option (Sink σ)) (tree : FileTree)
    (state : σ) : List Handover :=
  (p.execute root options (sink.map Sink.recorded) tree (state, [])).state.2

/-- **A record changes nothing else.** -/
theorem execute_recorded (p : Plan) (root : String) (options : BumpOptions) (sink : Option (Sink σ)) (tree : FileTree)
    (state : σ) : p.execute root options (sink.map Sink.recorded) tree (state, []) =
      ⟨(p.execute root options sink tree state).tree,
        ((p.execute root options sink tree state).state, p.handovers root options sink tree state),
        (p.execute root options sink tree state).result⟩ := by
  unfold handovers execute
  split
  · split
    · rfl
    · split
      · rfl
      · split
        · rfl
        · rename_i edited _ _ _ _ _
          unfold deliver
          cases p.delivery? options edited <;> cases sink <;> rfl
  · rfl

/-- A bump that hands nothing over leaves the record empty. -/
theorem execute_recorded_of_nothing {execution : Execution σ} (hrun : p.execute root options sink tree state = execution)
    (hnothing : p.handovers root options sink tree state = []) :
    p.execute root options (sink.map Sink.recorded) tree (state, []) =
      ⟨execution.tree, (execution.state, []), execution.result⟩ := by
  rw [execute_recorded, hrun, hnothing]

/-! ### How a bump gets to its end -/

/-- A dry run sets the next version and stops. -/
theorem execute_of_dry {edited : Manifest} (hchanged : p.hasChanged = true) (hdry : options.dryRun = true)
    (hset : p.manifest.set p.key p.next.text = .ok edited) (root : String) (sink : Option (Sink σ)) (tree : FileTree)
    (state : σ) : p.execute root options sink tree state = ⟨tree, state, .ok (p.changedOutcome options)⟩ := by
  simp only [execute, hchanged, hset, hdry, if_true]
  rfl

/-- A manifest that has been saved is handed over. -/
theorem execute_of_saved {edited : Manifest} {saved : FileTree} (h : p.Saved root options tree edited saved)
    (sink : Option (Sink σ)) (state : σ) :
    p.execute root options sink tree state = p.deliver options edited sink saved state := by
  simp only [execute, h.changed, h.set, h.wet, h.save, if_true, Bool.false_eq_true, if_false]

theorem handovers_of_unchanged (h : p.hasChanged = false) (root : String) (options : BumpOptions)
    (sink : Option (Sink σ)) (tree : FileTree) (state : σ) : p.handovers root options sink tree state = [] := by
  rw [handovers, execute_of_unchanged h]

theorem handovers_of_dry {edited : Manifest} (hchanged : p.hasChanged = true) (hdry : options.dryRun = true)
    (hset : p.manifest.set p.key p.next.text = .ok edited) (root : String) (sink : Option (Sink σ)) (tree : FileTree)
    (state : σ) : p.handovers root options sink tree state = [] := by
  rw [handovers, execute_of_dry hchanged hdry hset]

theorem handovers_of_kept {edited : Manifest} {saved : FileTree} (h : p.Saved root options tree edited saved)
    (hkept : p.delivery? options edited = none ∨ sink = none) (state : σ) :
    p.handovers root options sink tree state = [] := by
  rw [handovers, execute_of_saved h]
  unfold deliver
  rcases hkept with hnone | rfl
  · rw [hnone]
  · cases p.delivery? options edited <;> rfl

theorem handovers_of_delivery {edited : Manifest} {saved : FileTree} (h : p.Saved root options tree edited saved)
    {delivery : Delivery} (hdelivery : p.delivery? options edited = some delivery) (s : Sink σ) (state : σ) :
    p.handovers root options (some s) tree state =
      [⟨saved, delivery, (s.accept saved state delivery).result⟩] := by
  rw [handovers, execute_of_saved h]
  unfold deliver
  rw [hdelivery]
  rfl

/-! ### Dry runs -/

section Dry
variable {planned : FileTree} {root₀ : String} {config : Config} {labels : List String} {source : Source}

/-- **A dry run foretells the bump.** It always succeeds, leaves the files and the sink alone, also one with a record,
which stays empty, and comes to the outcome of the bump without the commit, wherever and with whatever sink the bump is
then done. -/
theorem execute_dry (hplan : make planned root₀ config labels source = .ok p) (root : String) (head : Option String)
    (sink : Option (Sink σ)) (tree : FileTree) (state : σ) :
    ∃ outcome, p.execute root ⟨true, head⟩ sink tree state = ⟨tree, state, .ok outcome⟩ ∧
      p.execute root ⟨true, head⟩ (sink.map Sink.recorded) tree (state, []) = ⟨tree, (state, []), .ok outcome⟩ ∧
      p.handovers root ⟨true, head⟩ sink tree state = [] ∧
      ∀ {τ : Type} (root' : String) (head' : Option String) (sink' : Option (Sink τ)) (tree' : FileTree) (state' : τ)
        (done : Outcome), (p.execute root' ⟨false, head'⟩ sink' tree' state').result = .ok done →
          outcome = { done with commit := none, dryRun := true } := by
  cases hchanged : p.hasChanged with
  | false =>
    have hrun := execute_of_unchanged hchanged root ⟨true, head⟩ sink tree state
    have hnothing : p.handovers root ⟨true, head⟩ sink tree state = [] := handovers_of_unchanged hchanged ..
    refine ⟨p.outcome ⟨true, head⟩, hrun, execute_recorded_of_nothing hrun hnothing, hnothing, ?_⟩
    intro τ root' head' sink' tree' state' done hdone
    rw [execute_of_unchanged hchanged] at hdone
    cases hdone
    rfl
  | true =>
    obtain ⟨front, back, -, hset⟩ := (make_eq_ok_iff.mp hplan).exists_set
    have hrun : p.execute root ⟨true, head⟩ sink tree state =
        ⟨tree, state, .ok (p.changedOutcome ⟨true, head⟩)⟩ := execute_of_dry hchanged rfl hset ..
    have hnothing : p.handovers root ⟨true, head⟩ sink tree state = [] := handovers_of_dry hchanged rfl hset ..
    refine ⟨p.changedOutcome ⟨true, head⟩, hrun, execute_recorded_of_nothing hrun hnothing, hnothing, ?_⟩
    intro τ root' head' sink' tree' state' done hdone
    have hcases := execute_cases p root' ⟨false, head'⟩ sink' tree' state'
    generalize p.execute root' ⟨false, head'⟩ sink' tree' state' = execution at hcases hdone
    cases hcases with
    | unchanged h =>
      rw [hchanged] at h
      cases h
    | refused => cases hdone
    | dry h => cases h
    | saved _ =>
      cases hdone
      rfl
    | delivered _ _ _ _ =>
      cases hdone
      rfl
    | undelivered _ _ _ _ => cases hdone

end Dry

theorem execute_dry_chart :
    make chart "" (.tagging "chart.yaml" "app.version") ["patch"] (.tagged "1.0.0") = .ok chartPlan ∧
      ∃ outcome, chartPlan.execute "" ⟨true, some "main"⟩ (some refusing) chart () = ⟨chart, (), .ok outcome⟩ ∧
        chartPlan.handovers "" ⟨true, some "main"⟩ (some refusing) chart () = [] ∧
        outcome = ⟨"1.0.0", "1.0.1", true, .patch, "chart.yaml", "app.version", none, none, true⟩ := by
  obtain ⟨outcome, hdry, -, hnone, hforetold⟩ := execute_dry make_chart "" (some "main") (some refusing) chart ()
  exact ⟨make_chart, outcome, hdry, hnone, hforetold _ _ _ _ _ _ execute_chart⟩

/-! ### Bumps that succeed -/

section Success
variable {config : Config} {labels : List String} {source : Source} {outcome : Outcome} {front back : String}

/-- What is handed over, if commits are configured and there is a branch for them. -/
theorem Made.delivery?_eq (h : Made tree root config labels source p) (options : BumpOptions) (edited : Manifest) :
    p.delivery? options edited =
      if config.commits then options.head.map fun head =>
        ⟨p.file, head, edited.content, Template.render config.commitTemplate p.currentText p.next.text⟩
      else none := by
  unfold delivery?
  rw [h.commitTemplate]
  split
  · cases options.head <;> rfl
  · rfl

theorem Made.delivery?_eq_none_iff (h : Made tree root config labels source p) {edited : Manifest} :
    p.delivery? options edited = none ↔ ¬(config.commits = true ∧ options.head.isSome) := by
  rw [h.delivery?_eq]
  cases config.commits <;> cases options.head <;> simp

/-- Whether a bump has something to hand over, and to whom. -/
def Delivers (p : Plan) (config : Config) (options : BumpOptions) (sink : Option (Sink σ)) : Prop :=
  p.hasChanged = true ∧ options.dryRun = false ∧ config.commits = true ∧ options.head.isSome ∧ sink.isSome

/-- What a bump has left behind when it came to `outcome`. In the manifest, `front` and `back` stand around the value
of the key. -/
structure Account (p : Plan) (config : Config) (root : String) (options : BumpOptions) (sink : Option (Sink σ))
    (tree : FileTree) (state : σ) (outcome : Outcome) (front back : String) : Prop where
  /-- With a record, the run is the same, and what is handed over is what the record tells. -/
  recorded : p.execute root options (sink.map Sink.recorded) tree (state, []) =
    ⟨(p.execute root options sink tree state).tree,
      ((p.execute root options sink tree state).state, p.handovers root options sink tree state),
      (p.execute root options sink tree state).result⟩
  /-- The manifest as it was. -/
  before : tree.read (Path.join root p.file) = .ok (front ++ outcome.previous ++ back)
  /-- What stood in it is the value of the key. -/
  stands : p.manifest.Stands config.targetKey front outcome.previous back
  /-- Nothing is handed over twice. -/
  once : (p.handovers root options sink tree state).length ≤ 1
  /-- When something is handed over. -/
  called_iff : (p.handovers root options sink tree state).length = 1 ↔ p.Delivers config options sink
  /-- What is handed over stands on disk at that moment: the manifest with the next version in it. The sink's answer
  is the commit, and nothing happens after it. -/
  handed : ∀ h ∈ p.handovers root options sink tree state, ∃ s head commit,
    sink = some s ∧ options.head = some head ∧
      h.delivery = ⟨p.file, head, front ++ outcome.version ++ back,
        Template.render config.commitTemplate outcome.previous outcome.version⟩ ∧
      h.tree.read (Path.join root p.file) = .ok h.delivery.content ∧
      h.answer = .ok commit ∧ outcome.commit = some commit ∧
      s.accept h.tree state h.delivery = ⟨(p.execute root options sink tree state).tree,
        (p.execute root options sink tree state).state, h.answer⟩
  /-- Without a delivery there is no commit. -/
  uncommitted : p.handovers root options sink tree state = [] → outcome.commit = none
  /-- The manifest behind the bump, unless the sink has changed what it was handed. -/
  saved : p.hasChanged = true → options.dryRun = false →
    (p.handovers root options sink tree state = [] ∨ ∀ s ∈ sink, s.Keeps (Path.join root p.file)) →
    (p.execute root options sink tree state).tree.read (Path.join root p.file) =
      .ok (front ++ outcome.version ++ back)
  /-- Where the manifest does not change, it is not written, and nothing is said. -/
  untouched : p.hasChanged = false → (p.execute root options sink tree state).tree = tree ∧ outcome.comment = none

/-- The account of a bump that has handed nothing over. -/
theorem Account.of_nothing (hread : tree.read (Path.join root p.file) = .ok (front ++ p.currentText ++ back))
    (hstands : p.manifest.Stands config.targetKey front p.currentText back)
    (hprevious : outcome.previous = p.currentText) (hcommit : outcome.commit = none)
    (hnothing : p.handovers root options sink tree state = []) (hnot : ¬p.Delivers config options sink)
    (hsaved : p.hasChanged = true → options.dryRun = false →
      (p.execute root options sink tree state).tree.read (Path.join root p.file) =
        .ok (front ++ outcome.version ++ back))
    (huntouched : p.hasChanged = false →
      (p.execute root options sink tree state).tree = tree ∧ outcome.comment = none) :
    p.Account config root options sink tree state outcome front back where
  recorded := execute_recorded p root options sink tree state
  before := by rw [hread, hprevious]
  stands := by rwa [hprevious]
  once := by simp [hnothing]
  called_iff := by simp [hnothing, hnot]
  handed := by simp [hnothing]
  uncommitted := fun _ => hcommit
  saved := fun hchanged hwet _ => hsaved hchanged hwet
  untouched := huntouched

/-- The account of a bump whose delivery the sink has taken. -/
theorem Account.of_delivery (hmade : Made tree root config labels source p)
    (hread : tree.read (Path.join root p.file) = .ok (front ++ p.currentText ++ back))
    (hstands : p.manifest.Stands config.targetKey front p.currentText back) {edited : Manifest} {saved : FileTree}
    (hsaved : p.Saved root options tree edited saved) (hcontent : edited.content = front ++ p.next.text ++ back)
    {delivery : Delivery} (hdelivery : p.delivery? options edited = some delivery) {s : Sink σ} {commit : String}
    (haccepted : (s.accept saved state delivery).result = .ok commit)
    (hexecution : p.execute root options (some s) tree state = ⟨(s.accept saved state delivery).tree,
      (s.accept saved state delivery).state, .ok { p.changedOutcome options with commit := some commit }⟩) :
    p.Account config root options (some s) tree state { p.changedOutcome options with commit := some commit }
      front back := by
  have hone := handovers_of_delivery hsaved hdelivery s state
  have hcommits : config.commits = true ∧ options.head.isSome := by
    by_contra hnot
    rw [hmade.delivery?_eq_none_iff.mpr hnot] at hdelivery
    cases hdelivery
  obtain ⟨head, hhead⟩ := Option.isSome_iff_exists.mp hcommits.2
  have hwhat := hdelivery
  rw [hmade.delivery?_eq, if_pos hcommits.1, hhead, Option.map_some, Option.some.injEq] at hwhat
  exact {
    recorded := execute_recorded p root options (some s) tree state
    before := hread
    stands := hstands
    once := by simp [hone]
    called_iff := by simp [hone, Delivers, hsaved.changed, hsaved.wet, hcommits]
    handed := by
      intro h hh
      rw [hone, List.mem_singleton] at hh
      subst hh
      refine ⟨s, head, commit, rfl, hhead, ?_, ?_, haccepted, rfl, ?_⟩
      · rw [← hwhat, hcontent]
        rfl
      · rw [hsaved.read, content_of_delivery hdelivery]
      · rw [hexecution]
    uncommitted := by simp [hone]
    saved := by
      rintro - - (hnothing | hkeeps)
      · simp [hone] at hnothing
      · rw [hexecution]
        exact (hsaved.read_accept hdelivery (hkeeps s rfl) state).trans (congrArg _ hcontent)
    untouched := fun hunchanged => by simp [hsaved.changed] at hunchanged }

/-- **What is committed is what is saved.** A bump that succeeds hands over the manifest as it has saved it, with the
next version in the place of the old one, exactly once if there is something to hand over, and never else. -/
theorem execute_accounted (hplan : make tree root config labels source = .ok p)
    (hdone : (p.execute root options sink tree state).result = .ok outcome) :
    ∃ front back, p.Account config root options sink tree state outcome front back := by
  have hmade := make_eq_ok_iff.mp hplan
  obtain ⟨front, back, hcurrent, hset⟩ := hmade.exists_set
  obtain ⟨hread, -, -⟩ := Manifest.load_eq_ok_iff.mp hmade.loaded
  rw [hcurrent.content] at hread
  have hstands : p.manifest.Stands config.targetKey front p.currentText back := hmade.key ▸ hcurrent
  have hcontent : ∀ {edited : Manifest} {saved : FileTree}, p.Saved root options tree edited saved →
      edited.content = front ++ p.next.text ++ back := by
    intro edited saved hsaved
    have hsame := hsaved.set
    rw [hset] at hsame
    cases hsame
    rfl
  refine ⟨front, back, ?_⟩
  have hcases := execute_cases p root options sink tree state
  generalize hexecution : p.execute root options sink tree state = execution at hcases hdone
  cases hcases with
  | unchanged h =>
    cases hdone
    exact .of_nothing hread hstands rfl rfl (handovers_of_unchanged h ..) (fun ⟨hchanged, _⟩ => by simp [h] at hchanged)
      (fun hchanged => by simp [h] at hchanged) fun _ => ⟨by rw [hexecution], rfl⟩
  | refused => cases hdone
  | dry hdry hchanged =>
    cases hdone
    exact .of_nothing hread hstands rfl rfl (handovers_of_dry hchanged hdry hset ..)
      (fun ⟨_, hwet, _⟩ => by simp [hdry] at hwet) (fun _ hwet => by simp [hdry] at hwet)
      fun hunchanged => by simp [hchanged] at hunchanged
  | @saved edited saved hsaved hkept =>
    cases hdone
    refine .of_nothing hread hstands rfl rfl (handovers_of_kept hsaved hkept ..) ?_ ?_ ?_
    · rintro ⟨-, -, hcommits, hhead, hsink⟩
      rcases hkept with hnone | rfl
      · exact hmade.delivery?_eq_none_iff.mp hnone ⟨hcommits, hhead⟩
      · cases hsink
    · intro _ _
      rw [hexecution, hsaved.read, hcontent hsaved]
      rfl
    · intro hunchanged
      simp [hsaved.changed] at hunchanged
  | @delivered edited saved hsaved delivery hdelivery s hsink commit haccepted =>
    cases hdone
    subst hsink
    exact .of_delivery hmade hread hstands hsaved (hcontent hsaved) hdelivery haccepted hexecution
  | undelivered _ _ _ _ => cases hdone

end Success

theorem execute_accounted_chart :
    ∃ front back commit, Plan.chart.read "chart.yaml" = .ok (front ++ "1.0.0" ++ back) ∧
      (chartPlan.handovers "" ⟨false, some "main"⟩ (some (.answering (.ok "c1"))) chart ()).length = 1 ∧
      (∀ h ∈ chartPlan.handovers "" ⟨false, some "main"⟩ (some (.answering (.ok "c1"))) chart (),
        h.delivery = ⟨"chart.yaml", "main", front ++ "1.0.1" ++ back, "Bump version from 1.0.0 to 1.0.1"⟩ ∧
        h.answer = .ok commit) ∧
      (chartPlan.execute "" ⟨false, some "main"⟩ (some (.answering (.ok "c1"))) chart ()).tree.read "chart.yaml" =
        .ok (front ++ "1.0.1" ++ back) := by
  obtain ⟨front, back, haccount⟩ := execute_accounted make_chart execute_chart
  refine ⟨front, back, "c1", haccount.before, haccount.called_iff.mpr ⟨by decide +kernel, rfl, rfl, rfl, rfl⟩, ?_, ?_⟩
  · intro h hh
    obtain ⟨s, head, commit, -, hhead, hdelivery, -, hanswer, hcommit, -⟩ := haccount.handed h hh
    cases hhead
    cases hcommit
    refine ⟨?_, hanswer⟩
    rw [hdelivery]
    congr 1
  · refine haccount.saved (by decide +kernel) rfl (.inr ?_)
    rintro s ⟨⟩
    exact (Sink.answering_inMemory _).keeps _

/-- A job at the root of a repository with the chart, which keeps its step outputs in the chart. -/
def chartJob : CommandLine.Session where
  tree := chart
  repository := some {
    place := []
    commits := [⟨[(["chart.yaml"], .text "app:\n  version: 1.0.0 # app\n")], none, ⟨"Test", "test@example.com"⟩,
      "initial\n"⟩]
    branches := [("main", 0)]
    tags := [("1.0.0", 0)]
    head := .branch "main"
    staged := [(["chart.yaml"], .text "app:\n  version: 1.0.0 # app\n")]
    identity := ⟨"Test", "test@example.com"⟩
    identifier := toString }
  directory := ""
  outputFile := some "chart.yaml"

/-- The job's bump of the chart. -/
def chartReply : CommandLine.Reply :=
  CommandLine.bump chartJob false {}
    { labels := ["patch"], file := some "chart.yaml", key := some "app.version", useTag := true, head := some "main",
      commit := true }

/-- **What has been committed need not be on disk any more.** A sink may put back what it was handed, and a job may
write to the file behind the bump, such as its step outputs. -/
theorem chart_not_as_committed :
    (make chart "" (.tagging "chart.yaml" "app.version") ["patch"] (.tagged "1.0.0") = .ok chartPlan ∧
      (chartPlan.execute "" ⟨false, some "main"⟩ (some (restoring chart)) chart ()).result =
        .ok ⟨"1.0.0", "1.0.1", true, .patch, "chart.yaml", "app.version", some "c1", none, false⟩ ∧
      (chartPlan.handovers "" ⟨false, some "main"⟩ (some (restoring chart)) chart ()).map (·.delivery.content) =
        ["app:\n  version: 1.0.1 # app\n"] ∧
      (chartPlan.execute "" ⟨false, some "main"⟩ (some (restoring chart)) chart ()).tree.read "chart.yaml" =
        .ok "app:\n  version: 1.0.0 # app\n") ∧
    chartReply.failure = none ∧
      Checkout.fileAt ⟨"", {}⟩ chartReply.session.tree chartReply.session.repository "main" "chart.yaml" =
        .ok "app:\n  version: 1.0.1 # app\n" ∧
      chartReply.session.tree.read "chart.yaml" =
        .ok "app:\n  version: 1.0.1 # app\nversion=1.0.1\nhas_changed=true\n" := by
  refine ⟨⟨make_chart, ?_, ?_, ?_⟩, ?_, ?_, ?_⟩ <;> decide +kernel

end Plan
end ManifestBump

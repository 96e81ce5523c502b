import ManifestBump.CommandLine.Bump
import ManifestBump.Proofs.Bump.Execute
import ManifestBump.Proofs.Text.Lines

/-! What later steps of a job read.

A version is written without line feeds, and so is a comment that is told. Hence what is added to the file of step
outputs are lines of its own, one for each output, and each line parted at its first `=` gives the name and the value of
the output (`writeStepOutputs_read`), whatever the template of the comment is. -/
namespace ManifestBump
open Text

/-! ### Outputs -/

namespace StepOutput

/-- The name and the value on a line: what stands in front of its first equals sign, and behind that up to its line
feed. -/
def read? (line : List Char) : Option (String × String) :=
  match line.dropWhile (· != '=') with
  | [] => none
  | _ :: value => some (String.ofList (line.takeWhile (· != '=')), String.ofList (value.takeWhile (· != '\n')))

/-- An output as a line. -/
def line (output : String × String) : String := output.1 ++ "=" ++ output.2 ++ "\n"

/-- Outputs as lines. -/
def text (outputs : List (String × String)) : String := String.join (outputs.map line)

/-- A name without equals signs and a value, neither of them with line feeds. -/
structure TakesLine (output : String × String) : Prop where
  name : '=' ∉ output.1.toList ∧ '\n' ∉ output.1.toList
  value : '\n' ∉ output.2.toList

/-- **The line of an output is one line, and tells it.** -/
theorem lines_line {output : String × String} (h : TakesLine output) (more : List Char) :
    ∃ written, lines ((line output).toList ++ more) = written :: lines more ∧ read? written = some output := by
  obtain ⟨name, value⟩ := output
  obtain ⟨⟨hequals, hname⟩, hvalue⟩ := h
  simp only at hequals hname hvalue
  have hbody : '\n' ∉ name.toList ++ '=' :: value.toList := by simp [hname, hvalue]
  refine ⟨name.toList ++ '=' :: (value.toList ++ ['\n']), ?_, ?_⟩
  · have hline := lines_append_line hbody more
    simpa [line] using hline
  · have hrun : ∀ c ∈ name.toList, (c != '=') = true := fun c hc => bne_iff_ne.mpr fun heq => hequals (heq ▸ hc)
    have hrun' : ∀ c ∈ value.toList, (c != '\n') = true := fun c hc => bne_iff_ne.mpr fun heq => hvalue (heq ▸ hc)
    have hstop : ∀ rest, Stops (· != '=') ('=' :: rest) := fun rest => stops_cons_iff.mpr (by decide)
    have hstop' : Stops (· != '\n') ['\n'] := stops_cons_iff.mpr (by decide)
    rw [read?, dropWhile_append hrun (hstop _), takeWhile_append hrun (hstop _)]
    simp only [takeWhile_append hrun' hstop', String.ofList_toList]

/-- **Lines of outputs are read back one by one.** -/
theorem mapM_read?_lines {outputs : List (String × String)} (h : ∀ output ∈ outputs, TakesLine output) :
    (lines (text outputs).toList).mapM read? = some outputs := by
  induction outputs with
  | nil => rfl
  | cons output outputs ih =>
    obtain ⟨written, hlines, hread⟩ := lines_line (h output List.mem_cons_self) (text outputs).toList
    have htext : (text (output :: outputs)).toList = (line output).toList ++ (text outputs).toList := by
      rw [text, List.map_cons, String.join_cons, String.toList_append]
      rfl
    rw [htext, hlines, List.mapM_cons, hread, ih fun output hmem => h output (List.mem_cons_of_mem _ hmem)]
    rfl

end StepOutput

/-! ### What an outcome tells -/

/-- The outputs of an outcome: its comment is one of them if it takes one line. -/
inductive Outcome.Tells (o : Outcome) : List (String × String) → Prop where
  | alone (h : ∀ comment ∈ o.comment, '\n' ∈ comment.toList) :
    Tells o [("version", o.version), ("has_changed", if o.hasChanged then "true" else "false")]
  | commented {comment : String} (h : o.comment = some comment) (hline : '\n' ∉ comment.toList) :
    Tells o [("version", o.version), ("has_changed", if o.hasChanged then "true" else "false"), ("comment", comment)]

theorem Outcome.tells_stepOutputs (o : Outcome) : o.Tells o.stepOutputs := by
  rw [stepOutputs]
  cases hcomment : o.comment with
  | none => exact .alone (by simp [hcomment])
  | some comment =>
    by_cases hline : '\n' ∈ comment.toList
    · have hnone : (some comment).filter (fun c => !c.toList.contains '\n') = none := by simp [Option.filter, hline]
      rw [hnone]
      exact .alone (by simp [hcomment, hline])
    · have hsome : (some comment).filter (fun c => !c.toList.contains '\n') = some comment := by
        simp [Option.filter, hline]
      rw [hsome]
      exact .commented hcomment hline

/-- Each output takes one line, if the version does. -/
theorem Outcome.Tells.takesLine {o : Outcome} {outputs : List (String × String)} (h : o.Tells outputs)
    (hversion : '\n' ∉ o.version.toList) : ∀ output ∈ outputs, StepOutput.TakesLine output := by
  have hnames : ∀ name ∈ ["version", "has_changed", "comment"], '=' ∉ name.toList ∧ '\n' ∉ name.toList := by decide
  have hfirst : StepOutput.TakesLine ("version", o.version) := ⟨hnames _ (by simp), hversion⟩
  have hsecond : StepOutput.TakesLine ("has_changed", if o.hasChanged then "true" else "false") := by
    cases o.hasChanged <;> exact ⟨by decide, by decide⟩
  cases h with
  | alone _ => simp [hfirst, hsecond]
  | commented _ hline =>
    have hthird : StepOutput.TakesLine ("comment", _) := ⟨hnames _ (by simp), hline⟩
    simp [hfirst, hsecond, hthird]

/-- No name comes twice. -/
theorem Outcome.Tells.nodup {o : Outcome} {outputs : List (String × String)} (h : o.Tells outputs) :
    (outputs.map Prod.fst).Nodup := by
  cases h with
  | alone _ => exact show ["version", "has_changed"].Nodup by decide
  | commented _ _ => exact show ["version", "has_changed", "comment"].Nodup by decide

/-! ### Bumps -/

namespace Plan
variable {σ : Type} {p : Plan} {tree files : FileTree} {root directory : String} {config : Config} {labels : List String}
  {source : Source} {options : BumpOptions} {sink : Option (Sink σ)} {state : σ} {o : Outcome}

/-- The version of an outcome is the next one of the plan. -/
theorem version_of_execute (h : (p.execute directory options sink files state).result = .ok o) :
    o.version = p.next.text := by
  have hcases := execute_cases p directory options sink files state
  generalize p.execute directory options sink files state = execution at hcases h
  cases hcases with
  | refused | undelivered => cases h
  | unchanged | dry | saved | delivered =>
    cases h
    rfl

/-- It takes one line. -/
theorem version_takesLine (hplan : make tree root config labels source = .ok p)
    (h : (p.execute directory options sink files state).result = .ok o) : '\n' ∉ o.version.toList := by
  obtain ⟨hplain, -⟩ := (make_eq_ok_iff.mp hplan).next_plain
  have hwritten := Release.written_of_parse (Release.parse_text_of_isPlain hplain)
  rw [version_of_execute h]
  intro hmem
  exact absurd (hwritten.chars _ hmem) (by decide)

end Plan

namespace CommandLine
variable {σ : Type} {p : Plan} {tree files : FileTree} {root directory : String} {config : Config} {labels : List String}
  {source : Source} {options : BumpOptions} {sink : Option (Sink σ)} {state : σ} {o : Outcome}

/-- **What a bump comes to is added to the file of step outputs, and read back from it.** Behind what was there stand
lines for the outputs, and nothing else: no line comes from inside of a value, and no output is told twice. -/
theorem writeStepOutputs_read (hplan : Plan.make tree root config labels source = .ok p)
    (hdone : (p.execute directory options sink files state).result = .ok o) {s : Session} {path : String}
    (hpath : s.outputFile = some path) (hne : path ≠ "") {prior : Content}
    (hprior : s.tree.readContent (s.absolute path) = .ok prior) :
    ∃ after outputs, writeStepOutputs s o = .ok { s with tree := after } ∧ o.Tells outputs ∧
      after.readContent (s.absolute path) = .ok (prior.append (StepOutput.text outputs)) ∧
      (lines (StepOutput.text outputs).toList).mapM StepOutput.read? = some outputs ∧ (outputs.map Prod.fst).Nodup ∧
      ∀ text, prior = .text text → text = "" ∨ text.toList.getLast? = some '\n' →
        lines (text ++ StepOutput.text outputs).toList = lines text.toList ++ lines (StepOutput.text outputs).toList := by
  have htells := o.tells_stepOutputs
  obtain ⟨after, happend, hread⟩ := FileTree.exists_append hprior o.stepOutputText
  refine ⟨after, o.stepOutputs, ?_, htells, hread, ?_, htells.nodup, fun text _ hended => ?_⟩
  · have hfile : s.outputFile.filter (!·.isEmpty) = some path := by simp [hpath, Option.filter, hne]
    simp only [writeStepOutputs, hfile, happend]
  · exact StepOutput.mapM_read?_lines (htells.takesLine (Plan.version_takesLine hplan hdone))
  · rw [String.toList_append]
    refine lines_append_of_ended ?_ _
    rcases hended with rfl | hlast
    · exact .inl rfl
    · exact .inr hlast

/-- A configuration for the chart that asks for a comment with an equals sign in it. -/
def commenting : Config :=
  { Config.tagging "chart.yaml" "app.version" with
    comment := some { enabled := some true, message := some "version=\x7bnew\x7d" } }

/-- A job with an output so far. -/
def job : Session where
  tree := .single "out" "tag=1.0.0\n"
  repository := none
  directory := "/"
  outputFile := some "out"

theorem writeStepOutputs_read_job :
    ∃ p o after, Plan.make Plan.chart "" commenting ["patch"] (.tagged "1.0.0") = .ok p ∧
      (p.execute "" ⟨true, none⟩ (none : Option (Sink Unit)) Plan.chart ()).result = .ok o ∧
      writeStepOutputs job o = .ok { job with tree := after } ∧ after.readContent "/out" =
        .ok (.text "tag=1.0.0\nversion=1.0.1\nhas_changed=true\ncomment=version=1.0.1\n") := by
  have hplan : Plan.make Plan.chart "" commenting ["patch"] (.tagged "1.0.0") =
      .ok { Plan.chartPlan with commentTemplate := some "version=\x7bnew\x7d" } := by
    decide +kernel
  have hdone : (Plan.execute { Plan.chartPlan with commentTemplate := some "version=\x7bnew\x7d" } "" ⟨true, none⟩
      (none : Option (Sink Unit)) Plan.chart ()).result = .ok ⟨"1.0.0", "1.0.1", true, .patch, "chart.yaml",
        "app.version", none, some "version=1.0.1", true⟩ := by
    decide +kernel
  have hprior : job.tree.readContent (job.absolute "out") = .ok (.text "tag=1.0.0\n") := by decide +kernel
  obtain ⟨after, outputs, hwrite, htells, hread, -⟩ := writeStepOutputs_read hplan hdone rfl (by decide) hprior
  refine ⟨_, _, after, hplan, hdone, hwrite, ?_⟩
  cases htells with
  | alone h => exact absurd (h _ rfl) (by decide)
  | commented h _ =>
    cases h
    exact hread.trans (by decide +kernel)

end CommandLine
end ManifestBump

import ManifestBump.Proofs.Bump.Execute

/-! Bumps, one after the other, in one directory.

A bump that changes the manifest exchanges the value of one key, and the value is found in the same place when the file
is opened again (`Run.holds_after`). So after any number of bumps the text in front of the value and the text behind it
are what they were (`Run.read_behind`), as long as a YAML key is in one line (`Run.read_behind_wide`). -/
namespace ManifestBump

/-- A bump that is planned and done at once, with everything it is given. -/
structure Run where
  /-- The state of the sink. -/
  σ : Type
  config : Config
  labels : List String
  source : Source
  options : BumpOptions
  sink : Option (Sink σ)
  state : σ

namespace Run

/-- The plan of a run. -/
def plan (r : Run) (root : String) (tree : FileTree) : Except BumpError Plan :=
  Plan.make tree root r.config r.labels r.source

/-- The tree behind a run. Where nothing can be planned, nothing is done. -/
def after (r : Run) (root : String) (tree : FileTree) : FileTree :=
  match r.plan root tree with
  | .ok p => (p.execute root r.options r.sink tree r.state).tree
  | .error _ => tree

/-- The tree behind some runs. -/
def behind (root : String) : FileTree → List Run → FileTree
  | tree, [] => tree
  | tree, r :: rest => behind root (r.after root tree) rest

/-- The next versions that some runs plan, as they are written. -/
def planned (root : String) : FileTree → List Run → List String
  | _, [] => []
  | tree, r :: rest =>
    ((r.plan root tree).toOption.map fun p => p.next.text).toList ++ planned root (r.after root tree) rest

/-- A run for a key in a file, with a sink that leaves the files alone. -/
structure Targets (r : Run) (file key : String) : Prop where
  file : r.config.targetFile? = some file
  key : r.config.targetKey = key
  inMemory : ∀ s ∈ r.sink, s.InMemory

/-! ### What a run keeps -/

/-- A file is a manifest in which the value of a key stands between two texts. -/
structure Holds (tree : FileTree) (path : String) (locator : Locator) (key front value back : String) : Prop where
  loaded : Manifest.load tree path = .ok ⟨front ++ value ++ back, locator⟩
  stands : Manifest.Stands ⟨front ++ value ++ back, locator⟩ key front value back

variable {root file key front back : String} {locator : Locator} {tree : FileTree} {r : Run}

/-- A plan is made for the value that stands there. -/
theorem Holds.manifest_eq {value : String} {p : Plan}
    (h : Holds tree (Path.join root file) locator key front value back)
    (hr : r.Targets file key) (hplan : r.plan root tree = .ok p) :
    p.file = file ∧ p.key = key ∧ p.manifest = ⟨front ++ value ++ back, locator⟩ ∧ p.currentText = value := by
  have hmade := Plan.make_eq_ok_iff.mp hplan
  obtain rfl : p.file = file := by simpa [hr.file] using hmade.file.symm
  obtain rfl : p.key = key := hmade.key.trans hr.key
  have hmanifest : p.manifest = ⟨front ++ value ++ back, locator⟩ := by simpa [h.loaded] using hmade.loaded.symm
  have hcurrent := hmade.currentText
  rw [hmanifest, h.stands.get] at hcurrent
  exact ⟨rfl, rfl, hmanifest, (Except.ok.inj hcurrent).symm⟩

/-- The next version stands where the old one stood, once the manifest has been saved. -/
theorem Holds.of_saved {value : String} {p : Plan} {edited : Manifest} {saved later : FileTree} {options : BumpOptions}
    (h : Holds tree (Path.join root file) locator key front value back) (hline : locator.OneLine key)
    (hr : r.Targets file key) (hplan : r.plan root tree = .ok p) (hsaved : p.Saved root options tree edited saved)
    (hread : later.read (Path.join root file) = .ok edited.content) :
    Holds later (Path.join root file) locator key front p.next.text back := by
  have hmade := Plan.make_eq_ok_iff.mp hplan
  obtain ⟨hplain, -⟩ := hmade.next_plain
  obtain ⟨-, hkey, hmanifest, hcurrent⟩ := h.manifest_eq hr hplan
  have hset := hsaved.set
  rw [hkey, hmanifest] at hset
  have hold : Release.Written value.toList := by
    rw [← hcurrent]
    exact Release.written_of_parse hmade.current
  obtain ⟨-, -, hopen⟩ := Manifest.load_eq_ok_iff.mp h.loaded
  obtain ⟨hlocator, hreopen, hstands⟩ := h.stands.exchange hopen hline hold
    (Release.written_of_parse (Release.parse_text_of_isPlain hplain)) (Release.dot_mem_text p.next) hset
  obtain rfl : edited = ⟨front ++ p.next.text ++ back, locator⟩ := (h.stands.set_eq_ok_iff.mp hset).2
  exact ⟨Manifest.load_of_read h.loaded hlocator hreopen hread, hstands⟩

/-- **A run leaves the tree alone, or the value has become the version that was planned.** -/
theorem holds_after {value : String} (h : Holds tree (Path.join root file) locator key front value back)
    (hline : locator.OneLine key) (hr : r.Targets file key) :
    r.after root tree = tree ∨ ∃ p, r.plan root tree = .ok p ∧
      Holds (r.after root tree) (Path.join root file) locator key front p.next.text back := by
  unfold after
  cases hplan : r.plan root tree with
  | error e => exact .inl rfl
  | ok p =>
    obtain ⟨rfl, -⟩ := h.manifest_eq hr hplan
    have hcases := Plan.execute_cases p root r.options r.sink tree r.state
    simp only
    generalize p.execute root r.options r.sink tree r.state = execution at hcases ⊢
    cases hcases with
    | unchanged _ => exact .inl rfl
    | refused => exact .inl rfl
    | dry _ => exact .inl rfl
    | saved hsaved => exact .inr ⟨p, rfl, h.of_saved hline hr hplan hsaved hsaved.read⟩
    | delivered hsaved hdelivery hsink =>
      have hread := hsaved.read_accept hdelivery ((hr.inMemory _ hsink).keeps _) r.state
      exact .inr ⟨p, rfl, h.of_saved hline hr hplan hsaved hread⟩
    | undelivered hsaved hdelivery hsink hfault =>
      have hread := hsaved.read_accept hdelivery ((hr.inMemory _ hsink).keeps _) r.state
      exact .inr ⟨p, rfl, h.of_saved hline hr hplan hsaved hread⟩

/-! ### What any number of runs keeps -/

/-- After some runs there stands what stood there, or a version that one of them has planned. -/
theorem holds_behind {value : String} {runs : List Run}
    (h : Holds tree (Path.join root file) locator key front value back) (hline : locator.OneLine key)
    (hruns : ∀ r ∈ runs, r.Targets file key) :
    ∃ value', (value' = value ∨ value' ∈ planned root tree runs) ∧
      Holds (behind root tree runs) (Path.join root file) locator key front value' back := by
  induction runs generalizing tree value with
  | nil => exact ⟨value, .inl rfl, h⟩
  | cons r rest ih =>
    have hrest : ∀ r ∈ rest, r.Targets file key := fun r hr => hruns r (List.mem_cons_of_mem _ hr)
    simp only [behind, planned, List.mem_append, Option.mem_toList]
    rcases holds_after h hline (hruns r List.mem_cons_self) with hsame | ⟨p, hplan, hholds⟩
    · obtain ⟨value', hvalue, hbehind⟩ := ih h hrest
      rw [hsame]
      exact ⟨value', hvalue.imp_right .inr, hbehind⟩
    · obtain ⟨value', hvalue, hbehind⟩ := ih hholds hrest
      refine ⟨value', .inr (hvalue.imp (fun hnext => ?_) id), hbehind⟩
      rw [hplan, hnext]
      rfl

/-- **Any number of bumps changes one value.** The text of a manifest is cut at the value of a key. After any bumps of
this key, whatever else they are given and however they end, the two pieces around the value are what they were, and
between them stands the old value or a version that one of the bumps has planned. That is also what is read when the
file is opened again. -/
theorem read_behind {m : Manifest} {found : Text.Occurrence} (hload : Manifest.load tree (Path.join root file) = .ok m)
    (hfound : m.locate key = .ok found) (hline : m.locator.OneLine key) :
    ∃ front old back, m.Stands key front old back ∧
      ∀ runs : List Run, (∀ r ∈ runs, r.Targets file key) →
        ∃ value m', (value = old ∨ value ∈ planned root tree runs) ∧
          (behind root tree runs).read (Path.join root file) = .ok (front ++ value ++ back) ∧
          Manifest.load (behind root tree runs) (Path.join root file) = .ok m' ∧ m'.get key = .ok value := by
  obtain ⟨front, old, back, hstands⟩ := Manifest.exists_stands hfound
  obtain ⟨content, locator⟩ := m
  obtain rfl : content = front ++ old ++ back := hstands.content
  refine ⟨front, old, back, hstands, fun runs hruns => ?_⟩
  obtain ⟨value, hvalue, hholds⟩ := holds_behind ⟨hload, hstands⟩ hline hruns
  obtain ⟨hread, -, -⟩ := Manifest.load_eq_ok_iff.mp hholds.loaded
  exact ⟨value, _, hvalue, hread, hholds.loaded, hholds.stands.get⟩

/-- A bump of the chart. -/
def chartRun (labels : List String) (tag : String) (options : BumpOptions) (sink : Option (Sink Unit)) : Run where
  σ := Unit
  config := .tagging "chart.yaml" "app.version"
  labels := labels
  source := .tagged tag
  options := options
  sink := sink
  state := ()

theorem targets_chartRun {labels : List String} {tag : String} {options : BumpOptions} {sink : Option (Sink Unit)}
    (h : ∀ s ∈ sink, s.InMemory) : (chartRun labels tag options sink).Targets "chart.yaml" "app.version" :=
  ⟨rfl, rfl, h⟩

/-- A bump that cannot be delivered, one that cannot be planned, a dry one, and one that is done. -/
def chartRuns : List Run :=
  [chartRun ["patch"] "1.0.0" ⟨false, some "main"⟩ (some Plan.refusing), chartRun [] "1.0.0" ⟨false, none⟩ none,
    chartRun ["minor"] "v3.4" ⟨true, some "main"⟩ (some Plan.refusing), chartRun ["major"] "v3.4" ⟨false, none⟩ none]

theorem targets_chartRuns : ∀ r ∈ chartRuns, r.Targets "chart.yaml" "app.version" := by
  have hrefusing : ∀ s ∈ some Plan.refusing, s.InMemory := by
    rintro _ ⟨⟩
    exact Sink.answering_inMemory _
  intro r hr
  simp only [chartRuns, List.mem_cons, List.not_mem_nil, or_false] at hr
  rcases hr with rfl | rfl | rfl | rfl
  · exact targets_chartRun hrefusing
  · exact targets_chartRun nofun
  · exact targets_chartRun hrefusing
  · exact targets_chartRun nofun

theorem read_behind_chartRuns :
    ∃ front old back, Plan.chartPlan.manifest.Stands "app.version" front old back ∧
      ∃ value m', (value = old ∨ value ∈ planned "" Plan.chart chartRuns) ∧
        (behind "" Plan.chart chartRuns).read (Path.join "" "chart.yaml") = .ok (front ++ value ++ back) ∧
        Manifest.load (behind "" Plan.chart chartRuns) (Path.join "" "chart.yaml") = .ok m' ∧
        m'.get "app.version" = .ok value := by
  have hload : Manifest.load Plan.chart (Path.join "" "chart.yaml") = .ok Plan.chartPlan.manifest := by decide +kernel
  have hfound : Plan.chartPlan.manifest.locate "app.version" = .ok ⟨⟨5, 27⟩, ⟨16, 21⟩⟩ := by decide +kernel
  obtain ⟨front, old, back, hstands, hruns⟩ := read_behind hload hfound fun _ => by decide +kernel
  exact ⟨front, old, back, hstands, hruns chartRuns targets_chartRuns⟩

/-- A bump of the key that takes several lines. -/
def wideRun : Run := ⟨Unit, Plan.wideConfig, ["patch"], .tagged "1.0.0", ⟨false, none⟩, none, ()⟩

/-- **A bump of a key that takes several lines can leave another value to be read.** The version that was planned stands
where it should, and what is read is the value of the last line. -/
theorem read_behind_wide :
    Manifest.load Plan.wide (Path.join "" "m.yaml") = .ok ⟨Plan.wideText "1" "7", .yaml⟩ ∧
      ¬∃ front old back, Manifest.Stands ⟨Plan.wideText "1" "7", .yaml⟩ ("   w." ++ Plan.wideKey) front old back ∧
        ∀ runs : List Run, (∀ r ∈ runs, r.Targets "m.yaml" ("   w." ++ Plan.wideKey)) →
          ∃ value m', (value = old ∨ value ∈ planned "" Plan.wide runs) ∧
            (behind "" Plan.wide runs).read (Path.join "" "m.yaml") = .ok (front ++ value ++ back) ∧
            Manifest.load (behind "" Plan.wide runs) (Path.join "" "m.yaml") = .ok m' ∧
            m'.get ("   w." ++ Plan.wideKey) = .ok value := by
  refine ⟨by decide +kernel, ?_⟩
  rintro ⟨front, old, back, hstands, hruns⟩
  have hold : Manifest.get ⟨Plan.wideText "1" "7", .yaml⟩ ("   w." ++ Plan.wideKey) = .ok "1" := by decide +kernel
  obtain rfl : old = "1" := by simpa [hstands.get] using hold
  obtain ⟨value, m', hvalue, -, hload, hget⟩ := hruns [wideRun] fun r hr => by
    obtain rfl := List.mem_singleton.mp hr
    exact ⟨by decide, by decide, nofun⟩
  have hplanned : planned "" Plan.wide [wideRun] = ["1.0.1"] := by decide +kernel
  have hagain : Manifest.load (behind "" Plan.wide [wideRun]) (Path.join "" "m.yaml") =
      .ok ⟨Plan.wideText "1.0.1" "7", .yaml⟩ := by decide +kernel
  obtain rfl : m' = ⟨Plan.wideText "1.0.1" "7", .yaml⟩ := by simpa [hagain] using hload.symm
  have hread : Manifest.get ⟨Plan.wideText "1.0.1" "7", .yaml⟩ ("   w." ++ Plan.wideKey) = .ok "7" := by decide +kernel
  obtain rfl : value = "7" := by simpa [hread] using hget.symm
  simp [hplanned] at hvalue

end Run
end ManifestBump

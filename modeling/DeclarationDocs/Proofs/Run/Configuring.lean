import DeclarationDocs.Proofs.Documenter.Reporting
import DeclarationDocs.Run

namespace DeclarationDocs

/-!
# Failures of the configuration

A configuration can be found wanting early, when it or the project is loaded, or late, when the
service is asked for the first time.  Even then nothing has been written or sent, because only a
job that has its backend writes and sends.

* `Failure.isConfiguration` — the failures that are meant;
* `Documenter.untouched_worldAfter` — as long as there is no backend, nothing has changed;
* `run_unconfigured` — if `(run o s).result = .error e` and `e.isConfiguration`, then
  `(run o s).tree = s.tree` and `(run o s).exchange = s.exchange`.
-/

/-- A failure of the tool's configuration, of the project file, or of what it includes. -/
def Failure.isConfiguration : Failure → Bool
  | config _ => true
  | projectNotFound _ => true
  | emptyInclude _ => true
  | pattern _ _ => true
  | _ => false

/-! ### Queues and templates -/

/-- What a queue could not read is a file. -/
theorem JobQueue.io_of_mem_toList {project : Project} {outputRoot : Path} {t : FileTree}
    {cwd : Place} {s : JobQueue} {e : Failure} (h : start project outputRoot t cwd = .ok s)
    (he : .error e ∈ s.toList t cwd) : ∃ f, e = .io f := by
  obtain ⟨files, -, hs⟩ := bind_eq_ok_iff.mp h
  obtain rfl := Except.ok.inj hs
  rw [toList_eq_itemsOf] at he
  obtain ⟨file, -, he⟩ := List.mem_flatMap.mp he
  unfold jobsOf readSource at he
  split at he
  · rename_i jobs _
    exact absurd he (by simp)
  · rename_i e' hjobs
    obtain rfl := Except.error.inj (List.mem_singleton.mp he)
    grind [Except.map]

/-- A template that is not resolved is no failure of the configuration. -/
theorem TemplateFolder.isConfiguration_of_resolve {s : TemplateFolder} {t : FileTree}
    {cwd : Place} {c : Category} {e : Failure} (h : s.resolve t cwd c = .error e) :
    e.isConfiguration = false := by
  rcases resolve_eq_error_iff.mp h with ⟨-, rfl⟩ | ⟨f, -, -, rfl⟩ <;> rfl

/-! ### Runs -/

namespace Documenter

variable {σ : Type} {p : Documenter} {w : World σ} {jobs : List Job} {e : Failure}

/-- Jobs after which there is still no backend have changed no file and sent nothing. -/
theorem untouched_worldAfter (h : (p.worldAfter jobs w).generator.backend? = none) :
    (p.worldAfter jobs w).tree = w.tree ∧ (p.worldAfter jobs w).state = w.state := by
  refine worldAfter_preserves (P := fun w' => w'.generator.backend? = none →
    w'.tree = w.tree ∧ w'.state = w.state) ?_ jobs (fun _ => ⟨rfl, rfl⟩) h
  intro job w' hbefore hafter
  obtain ⟨hnone, htree, hstate⟩ := untouched_of_doJob hafter
  rw [htree, hstate]
  exact hbefore hnone

/-- A run that a configuration fails has changed no file and sent nothing, however many jobs it has
    passed over by then. -/
theorem untouched_run {making asking : Failure → Prop}
    (hgenerator : w.generator.FailsWithin making asking)
    (hasking : ∀ e, asking e → e.isConfiguration = false)
    (h : (p.run w).result = .error e) (he : e.isConfiguration = true) :
    (p.run w).world.tree = w.tree ∧ (p.run w).world.state = w.state := by
  have hio : ∀ f, e ≠ .io f := by
    rintro f rfl
    exact absurd he (by simp [Failure.isConfiguration])
  rcases p.run_traced w with ⟨e', hs, hrun⟩ | ⟨s, f, hs, htraced⟩
  · rw [hrun]
    exact ⟨rfl, rfl⟩
  · have htrace := htraced.trace
    have hverdict := htraced.verdict
    rw [h] at hverdict
    cases hverdict with
    | unread hitems =>
      have hmem : .error e ∈ s.toList w.tree p.cwd := by
        rw [hitems]
        simp
      obtain ⟨f, hf⟩ := JobQueue.io_of_mem_toList hs hmem
      exact absurd hf (hio f)
    | failed hitems =>
      -- the last job has failed for want of a backend
      obtain ⟨before, job, hstarted, hfailed⟩ := htrace.of_failed
      have hnone := backend?_of_doJob (failsWithin_worldAfter hgenerator before) hfailed
        (fun h => absurd he (by simp [hasking e h]))
        (fun h => absurd he (by simp [TemplateFolder.isConfiguration_of_resolve h])) hio
      have hlast : (p.run w).world = p.worldAfter (before ++ [job]) w := by
        rw [htraced.world, hstarted]
      rw [hlast]
      refine untouched_worldAfter ?_
      rw [worldAfter_append]
      exact hnone

end Documenter

/-- **Failures of the configuration have no effect.**  If `run o s` fails with an `e` for which
    `e.isConfiguration` holds, that is by its configuration, by its project or by its service,
    then its tree is `s.tree` and its exchange is `s.exchange`: no file has changed and no request
    was sent.  `o` may list the jobs or do them. -/
theorem run_unconfigured {o : RunRequest} {s : Stage} {e : Failure}
    (h : (run o s).result = .error e) (he : e.isConfiguration = true) :
    (run o s).tree = s.tree ∧ (run o s).exchange = s.exchange := by
  unfold run at h ⊢
  split
  · exact ⟨rfl, rfl⟩
  · rename_i c project hprepare
    rw [hprepare] at h
    simp only at h ⊢
    split
    · unfold listJobs
      split <;> exact ⟨rfl, rfl⟩
    · rename_i hdry
      rw [if_neg hdry] at h
      refine Documenter.untouched_run (failsWithin_generatorFor s.surroundings c) ?_
        (map_eq_error_iff.mp h) he
      rintro e ⟨f, rfl⟩
      rfl

/-! ### A service that does not exist -/

/-- The defaults are a configuration. -/
theorem Config.extract_defaults :
    (Setting.defaults.merge (Setting.ofVariables [])).extract Config.shape =
      .ok (.record
        [.record [.text "tgi", .absent, .absent, .absent, .natural 300, .natural 1024],
         .record [.absent], .record [.text "docs"]]) := by
  simp [Setting.extract, Setting.extractAt, Setting.extractMembers, Setting.values,
    Setting.alphabetical, List.mergeSort, List.MergeSort.Internal.splitInTwo, Setting.complete,
    Setting.naturalOf, Setting.merge, Setting.mergeMembers, Setting.ofVariables, Setting.defaults,
    Config.shape, Config.section_, Config.default, Config.defaultOutputDir,
    ServiceConfig.sectionFields, ServiceConfig.default, ServiceConfig.usualTimeoutSecs,
    ServiceConfig.usualMaxNewTokens, ServiceKind.name, Path.text, Path.ofString, List.lookup_nil,
    List.lookup_cons, Except.map, bind, Except.bind]

/-- If nothing is said, the configuration is the default. -/
theorem Config.load_of_nothing {s : Surroundings} {t : FileTree}
    (hfiles : Config.layerFiles s t none = .ok []) (hvariables : s.environment = []) :
    Config.load s t none = .ok .default := by
  unfold Config.load
  rw [hfiles, hvariables]
  show (Config.ofSetting (Setting.defaults.merge (Setting.ofVariables [])) >>= _) = _
  rw [Config.ofSetting, Config.extract_defaults]
  rfl

/-- A stage with that project, and no network. -/
def sparseStage : Stage := ⟨⟨[], [], none, .ascii⟩, Documenter.sparseTree, .none⟩

/-- A request that names a service of which there is none. -/
def unknownRequest : RunRequest where
  project := some ⟨"/p/c".toList⟩
  templates := some ⟨"t".toList⟩
  provider := some "nobody"

/-- The provider's name is not looked at when a run is prepared. -/
theorem prepare_unknown : prepare unknownRequest sparseStage =
    .ok (unknownRequest.override .default, Documenter.sparse.project) := by
  have hfiles : Config.layerFiles sparseStage.surroundings sparseStage.tree none = .ok [] := rfl
  have happly : unknownRequest.apply .default = .ok (unknownRequest.override .default) := rfl
  have hload : Project.load sparseStage.tree [] ⟨"/p/c".toList⟩ = .ok Documenter.sparse.project := by
    with_unfolding_all rfl
  have hconfig : Config.load sparseStage.surroundings sparseStage.tree unknownRequest.config =
      .ok .default := Config.load_of_nothing hfiles rfl
  unfold prepare
  exact bind_eq_ok_iff.mpr ⟨_, hconfig, bind_eq_ok_iff.mpr ⟨_, happly,
    bind_eq_ok_iff.mpr ⟨_, hload, rfl⟩⟩⟩

/-- A run that skips a job before it finds that there is no such service. -/
theorem run_unconfigured_unknown :
    (run unknownRequest sparseStage).result = .error (.config (.unknownProvider "nobody")) ∧
      Console.eventLine (.skipped 0 Documenter.bareJob Documenter.bareReason) ∈
        (run unknownRequest sparseStage).lines ∧
      (run unknownRequest sparseStage).tree = sparseStage.tree ∧
      (run unknownRequest sparseStage).exchange = sparseStage.exchange := by
  have hrun : run unknownRequest sparseStage = doJobs sparseStage Documenter.sparse
      (generatorFor sparseStage.surroundings (unknownRequest.override .default)) := by
    unfold run
    rw [prepare_unknown]
    rfl
  generalize hgenerator : generatorFor sparseStage.surroundings (unknownRequest.override .default) =
    generator at hrun
  -- the second job has a template, so it is the first that needs the service
  have hmake : (generator.makeReady Http.Exchange.none).2.result =
      .error (.config (.unknownProvider "nobody")) := by
    rw [← hgenerator]
    rfl
  have htemplate : Documenter.sparse.templates.resolve Documenter.sparseTree Documenter.sparse.cwd
      Documenter.templatedJob.category = .ok "" := rfl
  have hfailed : (Documenter.sparse.doJob Documenter.templatedJob
      ⟨Documenter.sparseTree, generator, .none⟩).result =
        .error (.config (.unknownProvider "nobody")) := by
    rw [Documenter.doJob_of_makeReady htemplate hmake]
  have hreport := Documenter.run_sparse generator Http.Exchange.none
  rw [Documenter.perform_of_failed hfailed rfl] at hreport
  have hresult : (run unknownRequest sparseStage).result =
      .error (.config (.unknownProvider "nobody")) := by
    rw [hrun]
    show (Documenter.sparse.run ⟨Documenter.sparseTree, generator, .none⟩).result.map _ = _
    rw [hreport]
    rfl
  refine ⟨hresult, ?_, run_unconfigured hresult rfl⟩
  rw [hrun]
  show _ ∈ (Documenter.sparse.run ⟨Documenter.sparseTree, generator, .none⟩).events.map _
  rw [hreport]
  exact List.mem_map_of_mem (List.mem_append_left _ (by simp))

end DeclarationDocs

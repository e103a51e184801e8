import DeclarationDocs.Proofs.Documenter.Reporting
import DeclarationDocs.Run

namespace DeclarationDocs

open FileTree

/-!
# Plans and runs

A plan reads all sources before anything is written; a run reads them in between.  Since documents
are no sources, both see the same jobs.

* `Documenter.plan_eq_ok_iff` — a plan has an entry for every job of the queue;
* `Documenter.keepsSources_worldAt` — at no time has a run changed a source;
* `Documenter.run_planned` — `startedJobs (p.run w).events` is a prefix of the jobs of the plan.
-/

variable {σ : Type}

namespace Documenter

variable (p : Documenter)

/-- The entry of a job in a plan. -/
def entryOf (t : FileTree) (job : Job) : PlanEntry :=
  ⟨job, (p.templates.available t p.cwd).contains job.category⟩

/-- A plan can be made if all sources can be found and read. -/
theorem plan_eq_ok_iff {p : Documenter} {t : FileTree} {entries : List PlanEntry} :
    p.plan t = .ok entries ↔
      ∃ (s : JobQueue) (jobs : List Job), p.jobs t = .ok s ∧ s.toList t p.cwd = jobs.map .ok ∧
        entries = jobs.map (p.entryOf t) := by
  unfold plan
  rw [bind_eq_ok_iff]
  refine exists_congr fun s => ?_
  rw [bind_eq_ok_iff]
  simp only [mapM_id_eq_ok_iff, Except.ok.injEq]
  exact ⟨fun ⟨hs, jobs, hjobs, hentries⟩ => ⟨jobs, hs, hjobs, hentries.symm⟩,
    fun ⟨jobs, hs, hjobs, hentries⟩ => ⟨hs, jobs, hjobs, hentries.symm⟩⟩

theorem map_job_entryOf (t : FileTree) (jobs : List Job) :
    (jobs.map (p.entryOf t)).map PlanEntry.job = jobs := by
  simp [entryOf, Function.comp_def]

/-- The jobs that a run starts are the first ones of the plan. -/
theorem isPrefix_startedJobs {p : Documenter} {w : World σ} {entries : List PlanEntry}
    (hplan : p.plan w.tree = .ok entries) :
    startedJobs (p.run w).events <+: entries.map PlanEntry.job := by
  obtain ⟨s, jobs, hs, hjobs, rfl⟩ := plan_eq_ok_iff.mp hplan
  rw [map_job_entryOf]
  rcases p.run_traced w with ⟨e, he, -⟩ | ⟨s', f, hs', htraced⟩
  · exact absurd (he.symm.trans hs) (by simp)
  · obtain rfl := Except.ok.inj (hs.symm.trans hs')
    have hprefix := htraced.verdict.isPrefix_startedJobs
    rw [hjobs] at hprefix
    exact (List.prefix_map_iff_of_injective fun _ _ => Except.ok.inj).mp hprefix

/-- Every job that a run starts has a document of its name. -/
theorem titled_of_mem_startedJobs {p : Documenter} {w : World σ} {job : Job}
    (hjob : job ∈ startedJobs (p.run w).events) : job.Titled := by
  rcases p.run_traced w with ⟨e, -, hrun⟩ | ⟨s, f, hs, htraced⟩
  · rw [hrun] at hjob
    exact absurd hjob (by simp [startedJobs])
  · exact (JobQueue.awaits_start hs).titled_of_mem_toList
      (htraced.verdict.isPrefix_startedJobs.subset (List.mem_map_of_mem hjob))

/-- At no time has a run changed a source. -/
theorem keepsSources_worldAt (w : World σ) (n : Nat) :
    KeepsSources w.tree (p.worldAt w n).tree := by
  have hafter : ∀ (jobs : List Job) (w' : World σ), (∀ job ∈ jobs, job.Titled) →
      KeepsSources w.tree w'.tree → KeepsSources w.tree (p.worldAfter jobs w').tree := by
    intro jobs
    induction jobs with
    | nil => exact fun w' _ h => h
    | cons job jobs ih =>
      intro w' hjobs h
      obtain ⟨hjob, hjobs⟩ := List.forall_mem_cons.mp hjobs
      exact ih _ hjobs (h.trans (p.keepsSources_doJob hjob w'))
  exact hafter _ w (fun job hjob => titled_of_mem_startedJobs (List.mem_of_mem_take hjob)) (.refl _)

/-- How a run goes with the plan that is made of the same files. -/
structure Planned (w : World σ) : Prop where
  /-- If the run succeeds, so does the plan, with the jobs that the run has started. -/
  complete : ∀ stats, (p.run w).result = .ok stats → ∃ entries, p.plan w.tree = .ok entries ∧
    entries.map PlanEntry.job = startedJobs (p.run w).events
  /-- However the run ends, it has started the first jobs of the plan. -/
  started : ∀ entries, p.plan w.tree = .ok entries →
    startedJobs (p.run w).events <+: entries.map PlanEntry.job
  /-- Whatever has been written at any time, each source contributes what it did at the start. -/
  sources : ∀ files, p.project.sourceFiles w.tree p.cwd = .ok files → ∀ n, ∀ file ∈ files,
    sourceBlock p.project p.outputRoot (p.worldAt w n).tree p.cwd file =
      sourceBlock p.project p.outputRoot w.tree p.cwd file

/-- **Plans and runs see the same jobs**, whatever the generator of `w` does (`p.Planned w`).  And
    `listJobs s p` leaves `s.tree` and `s.exchange` alone. -/
theorem run_planned (w : World σ) :
    p.Planned w ∧
      ∀ s : Stage, (listJobs s p).tree = s.tree ∧ (listJobs s p).exchange = s.exchange := by
  refine ⟨⟨?complete, fun _ => isPrefix_startedJobs, ?sources⟩, ?listing⟩
  case complete =>
    intro stats hresult
    rcases p.run_traced w with ⟨e, -, hrun⟩ | ⟨s, f, hs, htraced⟩
    · rw [hrun] at hresult
      exact absurd hresult (by simp)
    · have hverdict := htraced.verdict
      rw [hresult] at hverdict
      cases hverdict with
      | done h =>
        exact ⟨_, plan_eq_ok_iff.mpr ⟨s, _, hs, h, rfl⟩, p.map_job_entryOf w.tree _⟩
  case sources =>
    intro files hfiles n file hfile
    unfold sourceBlock
    rw [(p.keepsSources_worldAt w n).readText_eq (SourceScan.dialect_of_mem_run hfiles hfile)
      (SourceScan.isFile_of_mem_run hfiles hfile)]
  case listing =>
    intro s
    unfold listJobs
    split <;> exact ⟨rfl, rfl⟩

/-- The plan of a project with one template goes with its run. -/
theorem run_planned_sparse :
    let w : World Unit := ⟨sparseTree, .ofBackend fixedBackend, ()⟩
    sparse.Planned w ∧ sparse.plan sparseTree =
      .ok [⟨bareJob, false⟩, ⟨templatedJob, true⟩] := by
  refine ⟨(run_planned sparse _).1, ?_⟩
  obtain ⟨s, hs, hlist⟩ := toList_sparse
  exact plan_eq_ok_iff.mpr ⟨s, [bareJob, templatedJob], hs, hlist, by decide⟩

end Documenter

end DeclarationDocs

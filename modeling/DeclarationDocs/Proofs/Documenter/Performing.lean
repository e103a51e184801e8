import DeclarationDocs.Proofs.Documenter.Sources

namespace DeclarationDocs

open FileTree

/-!
# Runs without a queue

A run takes its jobs from a queue that reads the sources one by one, while the documents of the
jobs before are written.  Since documents are no sources, the run might as well have read all of
them at the start: it is the plain loop over the list of the queue.

* `Documenter.perform` — the loop over a list of jobs and failures;
* `Documenter.runFrom_eq_perform` — by induction along the queue, the run is that loop;
* `Documenter.run_eq_perform` — `p.run w = p.perform 0 ⟨0, 0⟩ items w` for the `items` of the queue.
-/

variable {σ : Type}

namespace Documenter

variable (p : Documenter)

/-- Do the jobs of a list one after the other, the first of which has the given index. -/
def perform : Nat → Tally → List (Except Failure Job) → World σ → RunReport σ
  | _, stats, [], w => ⟨.ok stats, w, [], []⟩
  | _, _, .error e :: _, w => ⟨.error e, w, [], []⟩
  | index, stats, .ok job :: items, w =>
    let r := p.doJob job w
    match r.result with
    | .ok path =>
      (perform (index + 1) { stats with generated := stats.generated + 1 } items r.world).after
        [.started index job, .completed index job path] r.warnings
    | .error e =>
      if e.isRecoverable then
        (perform (index + 1) { stats with skipped := stats.skipped + 1 } items r.world).after
          [.started index job, .skipped index job e]
          (r.warnings ++ [.skipped job.declarationName job.category e])
      else ⟨.error e, r.world, [.started index job], r.warnings⟩

section Ways

variable {p} {index : Nat} {stats : Tally} {items : List (Except Failure Job)} {w : World σ}
  {job : Job} {path : Path} {e : Failure}

/-- A job that is completed is counted, told of, and followed by the other items. -/
theorem perform_of_completed (hr : (p.doJob job w).result = .ok path) :
    p.perform index stats (.ok job :: items) w =
      (p.perform (index + 1) { stats with generated := stats.generated + 1 } items
        (p.doJob job w).world).after
        [.started index job, .completed index job path] (p.doJob job w).warnings := by
  simp only [perform, hr]

/-- So is one that is skipped, by a failure that is recoverable. -/
theorem perform_of_skipped (hr : (p.doJob job w).result = .error e)
    (he : e.isRecoverable = true) :
    p.perform index stats (.ok job :: items) w =
      (p.perform (index + 1) { stats with skipped := stats.skipped + 1 } items
        (p.doJob job w).world).after
        [.started index job, .skipped index job e]
        ((p.doJob job w).warnings ++ [.skipped job.declarationName job.category e]) := by
  simp only [perform, hr, he, if_true]

/-- Any other failure of a job ends the loop, behind the start of that job. -/
theorem perform_of_failed (hr : (p.doJob job w).result = .error e)
    (he : e.isRecoverable = false) :
    p.perform index stats (.ok job :: items) w =
      ⟨.error e, (p.doJob job w).world, [.started index job], (p.doJob job w).warnings⟩ := by
  simp [perform, hr, he]

end Ways

/-- **The jobs that are left.**  By induction along the queue: every call answers what it would
    have answered at the start, because the jobs in between have kept the sources. -/
theorem runFrom_eq_perform {t₀ : FileTree} (index : Nat) (stats : Tally) (s : JobQueue)
    (w : World σ) (hs : s.Awaits t₀ p.cwd) (hw : KeepsSources t₀ w.tree) :
    p.runFrom index stats s w = p.perform index stats (s.toList t₀ p.cwd) w := by
  induction index, stats, s, w using Documenter.runFrom.induct p with
  | case1 index stats s w h =>
    have h₀ : s.next t₀ p.cwd = none := by rw [← hs.next_eq hw, h]
    rw [runFrom_of_none h, JobQueue.toList_of_next_none h₀, perform]
  | case2 index stats s w e rest h =>
    have h₀ : s.next t₀ p.cwd = some (.error e, rest) := by rw [← hs.next_eq hw, h]
    rw [runFrom_of_error h, JobQueue.toList_of_next_some h₀, perform]
  | case3 index stats s w job rest h r path hr ih =>
    have h₀ : s.next t₀ p.cwd = some (.ok job, rest) := by rw [← hs.next_eq hw, h]
    obtain ⟨hrest, htitled⟩ := hs.next h
    rw [runFrom_of_completed h hr, JobQueue.toList_of_next_some h₀, perform_of_completed hr]
    exact congrArg (RunReport.after · _ _)
      (ih hrest (hw.trans (p.keepsSources_doJob (htitled job rfl) w)))
  | case4 index stats s w job rest h r e hr he ih =>
    have h₀ : s.next t₀ p.cwd = some (.ok job, rest) := by rw [← hs.next_eq hw, h]
    obtain ⟨hrest, htitled⟩ := hs.next h
    rw [runFrom_of_skipped h hr he, JobQueue.toList_of_next_some h₀, perform_of_skipped hr he]
    exact congrArg (RunReport.after · _ _)
      (ih hrest (hw.trans (p.keepsSources_doJob (htitled job rfl) w)))
  | case5 index stats s w job rest h r e hr he =>
    have h₀ : s.next t₀ p.cwd = some (.ok job, rest) := by rw [← hs.next_eq hw, h]
    have he : e.isRecoverable = false := by simpa using he
    rw [runFrom_of_failed h hr he, JobQueue.toList_of_next_some h₀, perform_of_failed hr he]

/-- **A run without a queue.**  A run whose sources can be found is the loop over what its queue
    holds at the start. -/
theorem run_eq_perform {s : JobQueue} (w : World σ) (h : p.jobs w.tree = .ok s) :
    p.run w = p.perform 0 ⟨0, 0⟩ (s.toList w.tree p.cwd) w := by
  have hrun : p.run w = p.runFrom 0 ⟨0, 0⟩ s w := by simp only [run, h]
  rw [hrun, p.runFrom_eq_perform 0 ⟨0, 0⟩ s w (JobQueue.awaits_start h) (.refl _)]

/-- A run whose sources cannot be found does nothing. -/
theorem run_of_jobs {e : Failure} (w : World σ) (h : p.jobs w.tree = .error e) :
    p.run w = ⟨.error e, w, [], []⟩ := by
  simp only [run, h]

end Documenter

end DeclarationDocs

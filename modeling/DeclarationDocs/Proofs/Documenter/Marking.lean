import DeclarationDocs.Proofs.Documenter.Planning

namespace DeclarationDocs

open FileTree

/-!
# What the marks of a plan foretell

A plan marks the jobs that have a template, by whether there is such a file.  A run reads the
template when the turn of the job comes: a job is skipped if there is nothing at that place, and
ends the run if there is something that is no file.

* `Documenter.LeavesTemplates` — an `entry?` that is `none` at the place of a template stays `none`;
* `Documenter.keeps_worldAt` — such a run finds missing what was missing at the start;
* `Documenter.run_foretold` — an entry with `hasTemplate = false` is skipped, or ends the run.
-/

variable {σ : Type}

namespace Documenter

variable {p : Documenter} {w : World σ}

/-! ### Templates during a run -/

/-- The run puts nothing in the place of a missing template. -/
def LeavesTemplates (p : Documenter) (w : World σ) : Prop :=
  ∀ c, w.tree.entry? (p.templates.place p.cwd c) = none →
    (p.run w).world.tree.entry? (p.templates.place p.cwd c) = none

/-- Jobs write documents, and nothing else. -/
theorem exists_becomes_worldAfter (p : Documenter) (jobs : List Job) (w : World σ) :
    ∃ written, Becomes p.cwd w.tree (p.worldAfter jobs w).tree written := by
  refine worldAfter_preserves (P := fun w' => ∃ written, Becomes p.cwd w.tree w'.tree written) ?_
    jobs ⟨[], .refl w.tree⟩
  intro job w' ⟨written, hbefore⟩
  obtain ⟨_, -, heffect⟩ := p.doJob_effect job w' []
  split at heffect
  · obtain ⟨_, _, -, hjob⟩ := heffect
    exact ⟨_, hbefore.trans hjob⟩
  · exact ⟨_, hbefore.trans heffect.1⟩

/-- Without a folder of templates no job does anything. -/
theorem worldAfter_of_not_opens (h : ¬ w.tree.Opens p.cwd p.templates.root) (jobs : List Job) :
    p.worldAfter jobs w = w := by
  induction jobs with
  | nil => rfl
  | cons job jobs ih =>
    obtain ⟨e, hresolve⟩ := TemplateFolder.exists_resolve_eq_error h job.category
    show p.worldAfter jobs (p.doJob job w).world = w
    rw [doJob_of_resolve hresolve]
    exact ih

/-- **Templates during a run.**  Either there is no folder of templates, and the run changes
    nothing; or it is there all the time, and the entries in it stay. -/
theorem keeps_worldAt (h : p.LeavesTemplates w) (n : Nat) :
    p.templates.Keeps p.cwd w.tree (p.worldAt w n).tree := by
  by_cases hopens : w.tree.Opens p.cwd p.templates.root
  · obtain ⟨written, hbefore⟩ :=
      p.exists_becomes_worldAfter ((startedJobs (p.run w).events).take n) w
    refine TemplateFolder.keeps_of_becomes hopens hbefore fun c hnone => ?_
    -- what is there now is there in the end
    obtain ⟨f, -, hworld, -⟩ := p.exists_trace w
    obtain ⟨after, hafter⟩ := p.exists_becomes_worldAfter ((startedJobs (p.run w).events).drop n)
      (p.worldAt w n)
    have hend : (p.run w).world =
        p.worldAfter ((startedJobs (p.run w).events).drop n) (p.worldAt w n) := by
      rw [worldAt, ← worldAfter_append, List.take_append_drop]
      exact hworld
    rw [← hend] at hafter
    by_contra hsome
    exact hafter.entry?_ne_none hsome (h c hnone)
  · rw [worldAt, worldAfter_of_not_opens hopens]
    exact .refl ..

/-! ### Marks -/

/-- The mark of a planned job is whether the folder has its template. -/
theorem hasTemplate_entryOf {t : FileTree} {job : Job} :
    (p.entryOf t job).hasTemplate = p.templates.contains t p.cwd job.category := by
  rw [Bool.eq_iff_iff]
  show ((p.templates.available t p.cwd).contains job.category = true) ↔ _
  rw [List.contains_iff_mem, TemplateFolder.mem_available]

/-- How the entry of a plan with the given index goes with the run. -/
structure Foretold (p : Documenter) (w : World σ) (i : Nat) (entry : PlanEntry) : Prop where
  /-- The job is skipped if there is nothing at the place of its template at the start. -/
  skipped : (∃ e, .skipped i entry.job e ∈ (p.run w).events) ↔
    w.tree.readText p.cwd (p.templates.fileFor entry.job.category) = .error .notFound
  /-- The entry is without a template if the job is skipped, or ends the run because the path of
      its template leads to no file, or cannot be followed. -/
  marked : entry.hasTemplate = false ↔
    (∃ e, .skipped i entry.job e ∈ (p.run w).events) ∨
      ∃ f, f ≠ .notFound ∧ f ≠ .notUtf8 ∧
        w.tree.readText p.cwd (p.templates.fileFor entry.job.category) = .error f ∧
        (p.run w).result = .error (.io f) ∧ i + 1 = (startedJobs (p.run w).events).length

/-- **The marks of a plan.**  If the jobs put nothing in the place of a missing template
    (`p.LeavesTemplates w`), a job that the run starts has `hasTemplate = false` in the plan just
    when it is skipped, or ends the run because something that is no file is in the way of its
    template.  So no job that is marked as having a template is skipped.  A generator whose
    failures are not `Fatal` could skip jobs as well, but none that comes from a configuration
    does (`fatal_generatorFor`). -/
theorem run_foretold {entries : List PlanEntry} (hplan : p.plan w.tree = .ok entries)
    (hgenerator : w.generator.FailsWithin Failure.Fatal Failure.Fatal)
    (hfree : p.LeavesTemplates w) :
    ∀ i entry, entries[i]? = some entry → i < (startedJobs (p.run w).events).length →
      p.Foretold w i entry := by
  intro i entry hentry hstarted
  -- the job of the entry is the one that is started with its index
  have hjob : (startedJobs (p.run w).events)[i]? = some entry.job := by
    obtain ⟨hi, hget⟩ := List.getElem?_eq_some_iff.mp hentry
    rw [List.getElem?_eq_getElem hstarted, (isPrefix_startedJobs hplan).getElem hstarted,
      List.getElem_map, hget]
  have hmark : entry.hasTemplate = p.templates.contains w.tree p.cwd entry.job.category := by
    obtain ⟨s, jobs, -, -, rfl⟩ := plan_eq_ok_iff.mp hplan
    obtain ⟨job, -, rfl⟩ := List.mem_map.mp (List.mem_of_getElem? hentry)
    exact hasTemplate_entryOf
  have hkeeps := keeps_worldAt hfree i
  have hskipped : (∃ e, .skipped i entry.job e ∈ (p.run w).events) ↔
      w.tree.readText p.cwd (p.templates.fileFor entry.job.category) = .error .notFound := by
    constructor
    · intro ⟨e, he⟩
      obtain ⟨-, hresolve, rfl⟩ := (skipsUntemplated hgenerator i entry.job e).mp he
      exact hkeeps.missing _ (TemplateFolder.resolve_eq_templateNotFound_iff.mp hresolve).1
    · intro hmissing
      have hthen := hkeeps.failing _ _ (by simp) hmissing
      exact ⟨_, (skipsUntemplated hgenerator i entry.job _).mpr
        ⟨hjob, TemplateFolder.resolve_eq_templateNotFound_iff.mpr ⟨hthen, rfl, rfl⟩, rfl⟩⟩
  refine ⟨hskipped, ?_⟩
  rw [hmark, TemplateFolder.contains_eq_false_iff, hskipped]
  constructor
  · intro ⟨f, hf, hread⟩
    by_cases hmissing : f = .notFound
    · exact .inl (hmissing ▸ hread)
    · -- it cannot be read when its turn comes either
      have hresolve := TemplateFolder.resolve_eq_error_iff.mpr
        (.inr ⟨f, hmissing, hkeeps.failing _ f hf hread, rfl⟩)
      obtain ⟨hresult, hlast⟩ := p.failed_run hjob (by rw [doJob_of_resolve hresolve]) rfl
      exact .inr ⟨f, hmissing, hf, hread, hresult, hlast⟩
  · rintro (hread | ⟨f, -, hf, hread, -, -⟩)
    · exact ⟨_, by simp, hread⟩
    · exact ⟨f, hf, hread⟩

/-! ### A template, a missing one, and a directory in the place of one -/

/-- What was said of the project with one template comes true. -/
theorem run_foretold_sparse :
    let w : World Unit := ⟨sparseTree, .ofBackend fixedBackend, ()⟩
    sparse.plan w.tree = .ok [⟨bareJob, false⟩, ⟨templatedJob, true⟩] ∧
      w.generator.FailsWithin Failure.Fatal Failure.Fatal ∧ sparse.LeavesTemplates w ∧
      startedJobs (sparse.run w).events = [bareJob, templatedJob] ∧
      sparse.Foretold w 0 ⟨bareJob, false⟩ ∧ sparse.Foretold w 1 ⟨templatedJob, true⟩ := by
  intro w
  have hplan : sparse.plan w.tree = .ok [⟨bareJob, false⟩, ⟨templatedJob, true⟩] := by
    obtain ⟨s, hs, hlist⟩ := toList_sparse
    exact plan_eq_ok_iff.mpr ⟨s, [bareJob, templatedJob], hs, hlist, by decide⟩
  have hgenerator : w.generator.FailsWithin Failure.Fatal Failure.Fatal :=
    Generator.failsWithin_ofBackend fun prompt s e he => absurd he (by simp [fixedBackend])
  have hdone : (sparse.doJob templatedJob w).result = .ok ⟨"docs/A.md".toList⟩ := by
    rfl
  have hreport := run_sparse (Generator.ofBackend fixedBackend) ()
  rw [perform_of_completed hdone] at hreport
  have hstarted : startedJobs (sparse.run w).events = [bareJob, templatedJob] := by
    rw [hreport]
    rfl
  have hfree : sparse.LeavesTemplates w := by
    have hend : (sparse.run w).world.tree = (sparse.doJob templatedJob w).world.tree := by
      rw [hreport]
      rfl
    intro c
    rw [hend]
    cases c <;> decide
  have hforetold := run_foretold hplan hgenerator hfree
  exact ⟨hplan, hgenerator, hfree, hstarted, hforetold 0 _ rfl (by simp [hstarted]),
    hforetold 1 _ rfl (by simp [hstarted])⟩

/-- That project with a directory in the place of the missing template. -/
def blockedTree : FileTree :=
  ⟨(["t".toList, "interface.md".toList], .directory) :: sparseTree.entries⟩

theorem toList_blocked : ∃ s, sparse.jobs blockedTree = .ok s ∧
    s.toList blockedTree sparse.cwd = [.ok bareJob, .ok templatedJob] := by
  apply toList_of_source
  · with_unfolding_all rfl
  · rfl

/-- The job is marked as without a template, but it is not skipped: it ends the run. -/
theorem not_skipped_blocked :
    let w : World Unit := ⟨blockedTree, .ofBackend fixedBackend, ()⟩
    sparse.plan w.tree = .ok [⟨bareJob, false⟩, ⟨templatedJob, true⟩] ∧
      (sparse.run w).events = [.started 0 bareJob] ∧
      (sparse.run w).result = .error (.io .isDirectory) ∧
      (sparse.run w).world.tree = w.tree ∧
      ¬ ((PlanEntry.mk bareJob false).hasTemplate = false ↔
        ∃ e, .skipped 0 bareJob e ∈ (sparse.run w).events) := by
  intro w
  obtain ⟨s, hs, hlist⟩ := toList_blocked
  have hblocked : sparse.doJob bareJob w = ⟨.error (.io .isDirectory), w, []⟩ :=
    doJob_of_resolve rfl
  have hreport : sparse.run w = ⟨.error (.io .isDirectory), w, [.started 0 bareJob], []⟩ := by
    rw [sparse.run_eq_perform w hs, hlist,
      perform_of_failed (e := .io .isDirectory) (by rw [hblocked]) rfl, hblocked]
  rw [hreport]
  exact ⟨plan_eq_ok_iff.mpr ⟨s, [bareJob, templatedJob], hs, hlist, by decide⟩, rfl, rfl, rfl, by simp⟩

end Documenter

end DeclarationDocs

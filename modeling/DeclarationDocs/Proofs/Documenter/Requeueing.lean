import DeclarationDocs.Proofs.Documenter.Laziness
import DeclarationDocs.Proofs.Scan.Rescanning

namespace DeclarationDocs

open FileTree DeclarationDocs.Path

/-!
# The jobs that are left for a second run

Documents are no sources, so after a run the project has the sources that it had before.  Only a
path with `..` in it may lead to one of them in a new way, through a directory that the run has
made.

* `isFile_of_keepsSources` — a source that is found after the run, by a path that never goes up,
  was there before;
* `Documenter.stored_worldAfter` — a run leaves a tree as a disk holds it;
* `Documenter.LeavesSources` — no source is found in a new way;
* `Documenter.jobs_again` — then the queue that is left for a second run has the same items.
-/

variable {σ : Type}

/-! ### Sources by paths that never go up -/

/-- A path with a step `..` has the component `..`. -/
theorem Path.parent_mem_components {p : Path} (h : ['.', '.'] ∈ p.steps) :
    .parent ∈ p.components := by
  have hsegment : ['.', '.'] ∈ p.segments := List.mem_of_mem_filter h
  have hmem : ∀ {segs : List (List Char)}, ['.', '.'] ∈ segs →
      Component.parent ∈ segs.filterMap componentOf := fun hsegs =>
    List.mem_filterMap.mpr ⟨_, hsegs, rfl⟩
  rcases components_cases p with ⟨-, hp⟩ | ⟨-, r, hr, hp⟩ | ⟨-, -, hp⟩
  · rw [hp]
    exact List.mem_cons_of_mem _ (hmem hsegment)
  · rw [hp]
    rw [hr] at hsegment
    exact List.mem_cons_of_mem _ (hmem ((List.mem_cons.mp hsegment).resolve_left (by decide)))
  · rw [hp]
    exact hmem hsegment

/-- At the place of a source there was the same file, and a way that never goes up was there as
    well. -/
theorem isFile_of_keepsSources {t t' : FileTree} {cwd : Place} {p : Path} (hproper : t.Proper)
    (hgrows : Grows t t') (hkeeps : KeepsSources t t')
    (hdialect : (Dialect.ofPath? p).isSome = true) (hup : .parent ∉ p.components)
    (hfile : t'.isFile cwd p = true) : t.isFile cwd p = true := by
  obtain ⟨q, c, hl⟩ := exists_locate_of_isFile hfile
  obtain ⟨husable, hfollow, hentry, hslash⟩ := locate_eq_ok_iff.mp hl
  have hbefore : t.entry? q = some (.file c) := by
    unfold Dialect.ofPath? at hdialect
    cases hname : p.fileName with
    | none => simp [hname] at hdialect
    | some n =>
      rw [hname] at hdialect
      obtain ⟨above, habove⟩ := exists_destination cwd hname
      obtain rfl : q = above ++ [n] := (locate_eq_ok hl).1.trans habove
      have hfile : t'.fileAt? (above ++ [n]) = some c := fileAt?_eq_some.mpr hentry
      exact fileAt?_eq_some.mp ((hkeeps.files above n hdialect).symm.trans hfile)
  have hway := hgrows.foldlM_follow hproper (fun hmem => hup (parent_mem_components hmem)) hfollow
    (by simp [hbefore])
  have hl₀ : t.locate cwd p = .ok (q, some (.file c)) :=
    locate_eq_ok_iff.mpr ⟨husable, hway, hbefore, hslash⟩
  exact (isFile_of_locate hl₀).mpr (by simp)

namespace Documenter

variable {p : Documenter} {w : World σ}

/-! ### The tree that is left -/

/-- Delivering a text leaves a tree as a disk holds it. -/
theorem stored_deliver {job : Job} {text : String} {warnings : List Warning} (h : w.tree.Stored) :
    (p.deliver job text w warnings).world.tree.Stored :=
  stored_writeDocument h p.cwd job.outputDir job.outputFileName text

/-- One job, in whatever way it goes. -/
theorem stored_doJob (job : Job) (w : World σ) (h : w.tree.Stored) :
    (p.doJob job w).world.tree.Stored := by
  cases hresolve : p.templates.resolve w.tree p.cwd job.category with
  | error e =>
    rw [doJob_of_resolve hresolve]
    exact h
  | ok template =>
    cases hready : (w.generator.makeReady w.state).2.result with
    | error e =>
      rw [doJob_of_makeReady hresolve hready]
      exact h
    | ok _ =>
      cases hg : (request job template w).2.result with
      | error e =>
        rw [doJob_of_generate hresolve hready hg]
        exact h
      | ok text =>
        rw [doJob_of_deliver hresolve hready hg]
        exact stored_deliver (w := requested job template w) h

/-- So do any jobs one after the other. -/
theorem stored_worldAfter (jobs : List Job) (h : w.tree.Stored) :
    (p.worldAfter jobs w).tree.Stored :=
  worldAfter_preserves (P := fun w => w.tree.Stored) stored_doJob jobs h

/-- The tree after a run as a disk holds it, with what was there before. -/
theorem stored_run (h : w.tree.Stored) : (p.run w).world.tree.Stored := by
  obtain ⟨f, -, hworld, -⟩ := p.exists_trace w
  rw [hworld]
  exact stored_worldAfter _ h

/-- A run only adds to the tree, or overwrites files. -/
theorem grows_run (p : Documenter) (w : World σ) : Grows w.tree (p.run w).world.tree :=
  (documents_run p w).becomes.grows

/-- A run leaves all sources as they are. -/
theorem keepsSources_run (p : Documenter) (w : World σ) :
    KeepsSources w.tree (p.run w).world.tree := by
  obtain ⟨f, -, hworld, -⟩ := p.exists_trace w
  have hkeeps := p.keepsSources_worldAt w (startedJobs (p.run w).events).length
  rw [worldAt, List.take_length, ← hworld] at hkeeps
  exact hkeeps

/-! ### The queue that is left -/

/-- Every source that the project has after the run, and that is found by a path with `..` in it,
    was there before by that path. -/
def LeavesSources (p : Documenter) (w : World σ) : Prop :=
  ∀ files, p.project.sourceFiles (p.run w).world.tree p.cwd = .ok files →
    ∀ f ∈ files, .parent ∈ f.components → w.tree.isFile p.cwd f = true

/-- **Sources again.**  After the run the project has the sources that it had before. -/
theorem sourceFiles_again {config : Path} {files : List Path} (hstored : w.tree.Stored)
    (hload : Project.load w.tree p.cwd config = .ok p.project) (hsources : p.LeavesSources w)
    (hfiles : p.project.sourceFiles w.tree p.cwd = .ok files) :
    p.project.sourceFiles (p.run w).world.tree p.cwd = .ok files := by
  obtain ⟨q, hroot⟩ := Project.exists_locate_root_of_load hstored.proper hload
  obtain ⟨files', hfiles', hsame⟩ := SourceScan.exists_run_of_grows hstored (stored_run hstored)
    (grows_run p w) (Project.anchored_of_load hstored.proper hload).root
    ((isDirectory_of_locate hroot).mpr rfl) hfiles
  have hold : ∀ f ∈ files', w.tree.isFile p.cwd f = true := by
    intro f hf
    by_cases hup : .parent ∈ f.components
    · exact hsources files' hfiles' f hf hup
    · exact isFile_of_keepsSources hstored.proper (grows_run p w) (keepsSources_run p w)
        (SourceScan.dialect_of_mem_run hfiles' hf) hup (SourceScan.isFile_of_mem_run hfiles' hf)
  exact hfiles'.trans (congrArg Except.ok (hsame hold))

/-- **Jobs again.**  The queue that starts after the run holds what that of the run has held. -/
theorem jobs_again {config : Path} {s : JobQueue} (hstored : w.tree.Stored)
    (hload : Project.load w.tree p.cwd config = .ok p.project) (hsources : p.LeavesSources w)
    (hs : p.jobs w.tree = .ok s) :
    p.jobs (p.run w).world.tree = .ok s ∧
      s.toList (p.run w).world.tree p.cwd = s.toList w.tree p.cwd := by
  obtain ⟨files, hfiles, hqueue⟩ := bind_eq_ok_iff.mp hs
  obtain rfl := Except.ok.inj hqueue
  refine ⟨jobs_of_sourceFiles (sourceFiles_again hstored hload hsources hfiles), ?_⟩
  rw [JobQueue.toList_eq_itemsOf, JobQueue.toList_eq_itemsOf]
  refine List.flatMap_congr fun f hf => ?_
  have hread := (keepsSources_run p w).readText_eq (SourceScan.dialect_of_mem_run hfiles hf)
    (SourceScan.isFile_of_mem_run hfiles hf)
  rw [JobQueue.jobsOf_congr hread]

end Documenter

end DeclarationDocs

import DeclarationDocs.Proofs.Documenter.Effect
import DeclarationDocs.Proofs.Project.Placing

namespace DeclarationDocs

open FileTree DeclarationDocs.Path

/-!
# Which files a run can write

A run writes documents only, and each of them is placed below the output root.  How far a document
can be away from there is decided by the path of its source: a source that lies below a root of
its project only by going up from it, as `../shared/a.ts` does, takes its document up as well.

* `Job.Within` — a document below the output root, with names only on the way to it;
* `Job.within_iff` — a document is `Within` the output root just when `..` is not among the
  components `project.between` its source;
* `Documenter.placed_of_mem_events` — every job of a run is placed, by induction along the run;
* `Documenter.run_contained` — `p.Contained w` for a whole run.
-/

/-- The document is reached from the output root by going down. -/
def Job.Within (outputRoot : Path) (j : Job) : Prop :=
  ∃ names : List (List Char), j.outputPath.components = outputRoot.components ++ names.map .name

/-- The job that an event is about. -/
def Event.job : Event → Job
  | .started _ job => job
  | .completed _ job _ => job
  | .skipped _ job _ => job

variable {σ : Type} {project : Project} {outputRoot : Path} {j : Job} {cwd : Place}

/-! ### Documents that do not leave the output root -/

/-- Components that do not go up are names. -/
theorem exists_names {cs : List Component} (h : ∀ c ∈ cs, c = .parent ∨ ∃ n, c = .name n) :
    .parent ∉ cs ↔ ∃ names : List (List Char), cs = names.map .name := by
  constructor
  · intro hparent
    induction cs with
    | nil => exact ⟨[], rfl⟩
    | cons c cs ih =>
      obtain ⟨hc, hcs⟩ := List.forall_mem_cons.mp h
      obtain ⟨hne, hrest⟩ := not_or.mp (List.mem_cons.not.mp hparent)
      obtain ⟨names, rfl⟩ := ih hcs hrest
      obtain ⟨n, rfl⟩ := hc.resolve_left (Ne.symm hne)
      exact ⟨n :: names, rfl⟩
  · rintro ⟨names, rfl⟩
    simp

/-- A document stays below the output root just when its source does not go up from the root that
    it lies below. -/
theorem Job.within_iff (hanchored : project.Anchored) (h : j.Placed project outputRoot) :
    j.Within outputRoot ↔ .parent ∉ project.between j.sourcePath := by
  have hbetween : ∀ c ∈ project.between j.sourcePath, c = .parent ∨ ∃ n, c = .name n :=
    fun c hc => (Project.mem_between hanchored hc).1
  constructor
  · intro ⟨names, hnames⟩ hmem
    rw [h.components, List.append_assoc, List.append_cancel_left_eq] at hnames
    have hparent : Component.parent ∈ names.map Component.name := by
      rw [← hnames]
      exact List.mem_append_left _ hmem
    simp at hparent
  · intro hparent
    obtain ⟨names, hnames⟩ := (exists_names hbetween).mp hparent
    refine ⟨names ++ [(documentName j.declarationName).toList], ?_⟩
    rw [h.components, hnames, List.append_assoc, List.map_append]
    rfl

/-- The place of a document is the place of its directory, and its name there. -/
theorem Job.Placed.destination (h : j.Placed project outputRoot) :
    FileTree.destination cwd j.outputPath =
      FileTree.destination cwd j.outputDir ++ [(documentName j.declarationName).toList] := by
  rw [destination_eq, destination_eq, h.outputPath, List.foldl_append]
  rfl

/-- The document of a job within `outputRoot` leads to a place below it. -/
theorem Job.Within.destination (h : j.Within outputRoot) :
    FileTree.destination cwd outputRoot <+: FileTree.destination cwd j.outputPath := by
  obtain ⟨names, hnames⟩ := h
  rw [destination_eq, destination_eq, hnames, List.foldl_append, foldl_enter_names]
  exact List.prefix_append _ _

/-! ### Runs -/

/-- A completed job has an event. -/
theorem exists_event_of_mem_completedJobs {events : List Event} (h : j ∈ completedJobs events) :
    ∃ e ∈ events, e.job = j := by
  obtain ⟨e, he, hj⟩ := List.mem_filterMap.mp h
  cases e with
  | completed index job path => exact ⟨_, he, Option.some.inj hj⟩
  | started | skipped => exact absurd hj (by simp)

namespace Documenter

variable {p : Documenter}

/-- **The jobs of a run.**  By induction along the run, each call of the queue with the files as
    the jobs before have left them. -/
theorem placed_of_mem_events (h : p.project.Anchored) (index : Nat) (stats : Tally)
    (s : JobQueue) (w : World σ) (hs : s.Sound p.project p.outputRoot) :
    ∀ e ∈ (p.runFrom index stats s w).events, e.job.Placed p.project p.outputRoot := by
  induction index, stats, s, w using Documenter.runFrom.induct p with
  | case1 index stats s w hnext =>
    rw [runFrom_of_none hnext]
    simp
  | case2 index stats s w e rest hnext =>
    rw [runFrom_of_error hnext]
    simp
  | case3 index stats s w job rest hnext r path hr ih =>
    obtain ⟨hplaced, hrest⟩ := hs.next h hnext
    rw [runFrom_of_completed hnext hr]
    exact List.forall_mem_cons.mpr
      ⟨hplaced job rfl, List.forall_mem_cons.mpr ⟨hplaced job rfl, ih hrest⟩⟩
  | case4 index stats s w job rest hnext r e hr he ih =>
    obtain ⟨hplaced, hrest⟩ := hs.next h hnext
    rw [runFrom_of_skipped hnext hr he]
    exact List.forall_mem_cons.mpr
      ⟨hplaced job rfl, List.forall_mem_cons.mpr ⟨hplaced job rfl, ih hrest⟩⟩
  | case5 index stats s w job rest hnext r e hr he =>
    obtain ⟨hplaced, -⟩ := hs.next h hnext
    rw [runFrom_of_failed hnext hr (by simpa using he)]
    simpa [Event.job] using hplaced job rfl

/-- The jobs that a run tells of are placed where their sources are. -/
theorem placed_of_mem_run (h : p.project.Anchored) (w : World σ) :
    ∀ e ∈ (p.run w).events, e.job.Placed p.project p.outputRoot := by
  unfold run
  cases hs : p.jobs w.tree with
  | error e => simp
  | ok s => exact placed_of_mem_events h 0 ⟨0, 0⟩ s w (JobQueue.sound_start hs)

/-- The files after a run are those before it and the documents of its completed jobs, each with
    the text that was given back for it. -/
theorem documents_run (p : Documenter) (w : World σ) :
    Documents p w.tree (p.run w) (p.answers w) := by
  cases hs : p.jobs w.tree with
  | error e =>
    have hrun : p.run w = ⟨.error e, w, [], []⟩ := by simp only [run, hs]
    rw [hrun]
    exact .of_no_job rfl (.refl _)
  | ok s =>
    obtain ⟨added, hrecorded, hdocuments⟩ := p.runFrom_effect 0 ⟨0, 0⟩ s w []
    have hrun : p.run w = p.runFrom 0 ⟨0, 0⟩ s w := by simp only [run, hs]
    have hanswers : p.answers w = added := by
      have hs' : p.jobs (w.recording []).tree = .ok s := hs
      simp only [answers, run, hs']
      rw [hrecorded]
      rfl
    rw [hrun, hanswers]
    exact hdocuments

/-- A file that has changed is the document of a completed job. -/
theorem exists_completedJob_of_ne (w : World σ) {q : Place}
    (hq : (p.run w).world.tree.fileAt? q ≠ w.tree.fileAt? q) :
    ∃ j ∈ completedJobs (p.run w).events, q = FileTree.destination p.cwd j.outputPath := by
  rw [(documents_run p w).becomes.files] at hq
  by_contra hnone
  simp only [not_exists, not_and] at hnone
  refine hq (overwritten_of_forall_ne fun x hx => ?_)
  -- every text was written for one of the completed jobs
  obtain ⟨⟨j, answer⟩, hmem, rfl⟩ := List.mem_map.mp hx
  exact fun heq => hnone j (List.of_mem_zip hmem).1 heq.symm

/-- What is known of the places that a documenter uses: its jobs are placed, in whatever state the
    files are and also while they change; a document leaves the output root only for a source
    whose path goes up from a root of the project; and a file that has changed is a document. -/
structure Contained (p : Documenter) (w : World σ) : Prop where
  jobs : ∀ t s j, p.jobs t = .ok s → .ok j ∈ s.toList t p.cwd →
    j.Placed p.project p.outputRoot ∧
      (j.Within p.outputRoot ↔ .parent ∉ p.project.between j.sourcePath)
  events : ∀ e ∈ (p.run w).events, e.job.Placed p.project p.outputRoot ∧
    (e.job.Within p.outputRoot ↔ .parent ∉ p.project.between e.job.sourcePath)
  changed : ∀ q, (p.run w).world.tree.fileAt? q ≠ w.tree.fileAt? q →
    ∃ j ∈ completedJobs (p.run w).events, q = FileTree.destination p.cwd j.outputPath ∧
      (.parent ∉ p.project.between j.sourcePath → FileTree.destination p.cwd p.outputRoot <+: q)

/-- **Containment.**  For every project that `Project.load` gives and every output root, each job
    is `Placed`: its document is the output root, the components `p.project.between` a root of the
    project and the source, and the name of the document.  It is `Within` the output root just
    when `..` is not among these components; and every file that the run changes is the document
    of a completed job. -/
theorem run_contained {t : FileTree} {cwd : Place} {config : Path} (hproper : t.Proper)
    (hload : Project.load t cwd config = .ok p.project) (w : World σ) : p.Contained w := by
  have hanchored := Project.anchored_of_load hproper hload
  constructor
  · intro t' s j hs hj
    have hplaced := JobQueue.placed_of_mem_toList hanchored (JobQueue.sound_start hs) hj
    exact ⟨hplaced, Job.within_iff hanchored hplaced⟩
  · intro e he
    have hplaced := placed_of_mem_run hanchored w e he
    exact ⟨hplaced, Job.within_iff hanchored hplaced⟩
  · intro q hq
    obtain ⟨j, hj, rfl⟩ := exists_completedJob_of_ne w hq
    obtain ⟨e, he, rfl⟩ := exists_event_of_mem_completedJobs hj
    have hplaced := placed_of_mem_run hanchored w e he
    exact ⟨_, hj, rfl, fun hparent => ((Job.within_iff hanchored hplaced).mpr hparent).destination⟩

/-! ### A source above its project -/

/-- A backend that says the same whatever it is asked for. -/
def fixedBackend : Backend Unit where
  name := "fixed"
  model := "fixed"
  checkHealth _ := ⟨.ok true, (), []⟩
  generate _ _ := ⟨.ok ⟨"text", 0, 0, "fixed", "fixed"⟩, (), []⟩

/-- A project that takes in what is beside its directory. -/
def climbingTree : FileTree :=
  ⟨[(["p".toList], .directory),
    (["p".toList, "c".toList], .file (.text "\x7b\"include\":[\"../shared/*.ts\"]\x7d")),
    (["shared".toList], .directory),
    (["shared".toList, "a.ts".toList], .file (.text "enum A\x7b\x7d")),
    (["t".toList], .directory),
    (["t".toList, "enum.md".toList], .file (.text ""))]⟩

/-- The documents of that project. -/
def climbing : Documenter where
  project := ⟨⟨"/p/c".toList⟩, ⟨"/p".toList⟩, ⟨"/p".toList⟩, ["../shared/*.ts"], []⟩
  outputRoot := ⟨"docs".toList⟩
  templates := ⟨⟨"t".toList⟩⟩
  cwd := []

/-- Its project is what its project file says. -/
theorem load_climbing :
    Project.load climbingTree [] ⟨"/p/c".toList⟩ = .ok climbing.project := by
  with_unfolding_all rfl

/-- Whatever a run of that project starts with, its documents are placed as was said. -/
theorem run_contained_climbing :
    climbingTree.Proper ∧ Project.load climbingTree [] ⟨"/p/c".toList⟩ = .ok climbing.project ∧
      climbing.Contained ⟨climbingTree, .ofBackend fixedBackend, ()⟩ := by
  have hproper : climbingTree.Proper := ⟨by decide, by decide⟩
  exact ⟨hproper, load_climbing, run_contained hproper load_climbing _⟩

/-- The job of the source beside the project. -/
def climbingJob : Job :=
  ⟨"A", "enum A\x7b\x7d", .enum, ⟨"docs/../shared".toList⟩, "A.md", ⟨"/p/../shared/a.ts".toList⟩⟩

/-- Its document is not below the output root. -/
theorem not_within_climbing :
    ∃ s, climbing.jobs climbingTree = .ok s ∧ .ok climbingJob ∈ s.toList climbingTree [] ∧
      climbingJob.outputPath.components =
        [.name "docs".toList, .parent, .name "shared".toList, .name "A.md".toList] ∧
      ¬ climbingJob.Within climbing.outputRoot := by
  have hfiles : climbing.project.sourceFiles climbingTree [] =
      .ok [⟨"/p/../shared/a.ts".toList⟩] := by
    rw [← toOption_eq_some_iff]
    decide +kernel
  have hjobs : JobQueue.jobsOf climbing.project climbing.outputRoot climbingTree []
      ⟨"/p/../shared/a.ts".toList⟩ = .ok [climbingJob] := by
    rw [← toOption_eq_some_iff]
    decide +kernel
  have hcomponents : climbingJob.outputPath.components =
      [.name "docs".toList, .parent, .name "shared".toList, .name "A.md".toList] := by
    decide +kernel
  refine ⟨⟨climbing.project, climbing.outputRoot, [], [⟨"/p/../shared/a.ts".toList⟩]⟩, ?_, ?_,
    hcomponents, ?_⟩
  · show JobQueue.start climbing.project climbing.outputRoot climbingTree [] = _
    rw [JobQueue.start, hfiles]
    rfl
  · rw [JobQueue.toList_eq_itemsOf, JobQueue.itemsOf, List.flatMap_singleton, hjobs]
    simp
  · intro ⟨names, hnames⟩
    have hroot : climbing.outputRoot.components = [.name "docs".toList] := by decide +kernel
    rw [hcomponents, hroot, List.singleton_append, List.cons.injEq] at hnames
    -- what is left of the path begins with `..`, which is no name
    have hparent : Component.parent ∈ names.map Component.name :=
      hnames.2 ▸ List.mem_cons_self
    simp at hparent

end Documenter

end DeclarationDocs

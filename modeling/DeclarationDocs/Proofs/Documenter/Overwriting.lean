import DeclarationDocs.Proofs.Documenter.Containment

namespace DeclarationDocs

open FileTree DeclarationDocs.Path

/-!
# Which documents share a file

A document is named for its declaration alone, in the directory that belongs to its source.  So
declarations of one name share a file if their sources lie in one directory, whatever their kinds
and however many sources there are, and all others are kept apart.

* `Job.same_iff`, `Job.destination_iff` — when `a.outputPath.same b.outputPath`, and when both paths
  have one `destination`;
* `Job.destination_outputDir_iff` — different directories are different places as long as no
  source goes up from the root of its project;
* `Documenter.readText_of_last` — the last document of a file is the one that stays;
* `Documenter.run_keepsApart` — `p.KeepsApart w` for a whole run.
-/

variable {σ : Type} {project : Project} {outputRoot : Path} {a b : Job} {cwd : Place}

/-! ### Two documents -/

/-- Two documents have the same path if they have the same name in the same directory. -/
theorem Job.same_iff (ha : a.Placed project outputRoot) (hb : b.Placed project outputRoot) :
    a.outputPath.same b.outputPath = true ↔
      project.between a.sourcePath = project.between b.sourcePath ∧
        a.declarationName = b.declarationName := by
  rw [same, beq_iff_eq, ha.components, hb.components, ← documentName_inj, ← String.toList_inj]
  constructor
  · intro h
    obtain ⟨hdir, hname⟩ := List.append_inj' h rfl
    exact ⟨List.append_cancel_left hdir, by simpa using hname⟩
  · rintro ⟨hdir, hname⟩
    rw [hdir, hname]

/-- Two documents are put at the same place if their directories are one place and they have the
    same name. -/
theorem Job.destination_iff (ha : a.Placed project outputRoot) (hb : b.Placed project outputRoot) :
    destination cwd a.outputPath = destination cwd b.outputPath ↔
      destination cwd a.outputDir = destination cwd b.outputDir ∧
        a.declarationName = b.declarationName := by
  rw [ha.destination, hb.destination, ← documentName_inj, ← String.toList_inj]
  constructor
  · intro h
    obtain ⟨hdir, hname⟩ := List.append_inj' h rfl
    exact ⟨hdir, by simpa using hname⟩
  · rintro ⟨hdir, hname⟩
    rw [hdir, hname]

/-- Below the output root, two directories are one place only if they are spelled alike. -/
theorem Job.destination_outputDir_iff (hanchored : project.Anchored)
    (ha : a.Placed project outputRoot) (hb : b.Placed project outputRoot)
    (hawithin : a.Within outputRoot) (hbwithin : b.Within outputRoot) :
    destination cwd a.outputDir = destination cwd b.outputDir ↔
      project.between a.sourcePath = project.between b.sourcePath := by
  have hnames : ∀ {j : Job}, j.Placed project outputRoot → j.Within outputRoot →
      ∃ names : List (List Char), project.between j.sourcePath = names.map .name ∧
        destination cwd j.outputDir = destination cwd outputRoot ++ names := by
    intro j hj hwithin
    obtain ⟨names, hnames⟩ := (exists_names fun c hc => (Project.mem_between hanchored hc).1).mp
      ((Job.within_iff hanchored hj).mp hwithin)
    refine ⟨names, hnames, ?_⟩
    rw [destination_eq, destination_eq, hj.outputDir, hnames, List.foldl_append, foldl_enter_names]
  obtain ⟨left, hleft, haplace⟩ := hnames ha hawithin
  obtain ⟨right, hright, hbplace⟩ := hnames hb hbwithin
  rw [haplace, hbplace, hleft, hright, List.append_cancel_left_eq]
  exact (List.map_inj_right fun _ _ => Component.name.inj).symm

namespace Documenter

variable {p : Documenter}

/-! ### Documents that stay -/

/-- A document that no later one is put in the place of holds the text of its job after the run. -/
theorem readText_of_last (w : World σ) {before after : List Job}
    (hjobs : completedJobs (p.run w).events = before ++ a :: after)
    (hlast : ∀ b ∈ after, destination p.cwd b.outputPath ≠ destination p.cwd a.outputPath) :
    ∃ answer, (p.answers w)[before.length]? = some answer ∧
      (p.run w).world.tree.readText p.cwd a.outputPath = .ok answer.text := by
  have hdocuments := documents_run p w
  have hlength := hdocuments.length_le
  have hbecomes := hdocuments.becomes
  rw [hjobs, List.length_append, List.length_cons] at hlength
  have hindex : before.length < (p.answers w).length := by omega
  -- the answers before this job, its own, and those behind it
  have hanswers : p.answers w = (p.answers w).take before.length ++
      (p.answers w)[before.length] :: (p.answers w).drop (before.length + 1) := by
    rw [← List.drop_eq_getElem_cons hindex, List.take_append_drop]
  refine ⟨(p.answers w)[before.length], List.getElem?_eq_getElem hindex, ?_⟩
  rw [hjobs, hanswers, List.zip_append (by rw [List.length_take]; omega), List.zip_cons_cons,
    documentsOf, List.map_append, List.map_cons] at hbecomes
  refine hbecomes.readText fun x hx => ?_
  obtain ⟨⟨b, answer⟩, hmem, rfl⟩ := List.mem_map.mp hx
  exact hlast b (List.of_mem_zip hmem).1

/-- How the documents of a run share files: the paths of two of them are the `same`, or lead to
    one place, only if they have one `declarationName` in one directory; and a document stays
    unless a later one of its name is put in its directory. -/
structure KeepsApart (p : Documenter) (w : World σ) : Prop where
  paths : ∀ a ∈ completedJobs (p.run w).events, ∀ b ∈ completedJobs (p.run w).events,
    (a.outputPath.same b.outputPath = true ↔
      p.project.between a.sourcePath = p.project.between b.sourcePath ∧
        a.declarationName = b.declarationName)
  places : ∀ a ∈ completedJobs (p.run w).events, ∀ b ∈ completedJobs (p.run w).events,
    (destination p.cwd a.outputPath = destination p.cwd b.outputPath ↔
      destination p.cwd a.outputDir = destination p.cwd b.outputDir ∧
        a.declarationName = b.declarationName)
  directories : ∀ a ∈ completedJobs (p.run w).events, ∀ b ∈ completedJobs (p.run w).events,
    a.Within p.outputRoot → b.Within p.outputRoot →
      (destination p.cwd a.outputDir = destination p.cwd b.outputDir ↔
        p.project.between a.sourcePath = p.project.between b.sourcePath)
  texts : ∀ before a after, completedJobs (p.run w).events = before ++ a :: after →
    (∀ b ∈ after, b.declarationName = a.declarationName →
      destination p.cwd b.outputDir ≠ destination p.cwd a.outputDir) →
    ∃ answer, (p.answers w)[before.length]? = some answer ∧
      (p.run w).world.tree.readText p.cwd a.outputPath = .ok answer.text

/-- **Documents that are kept apart.**  For every project that `Project.load` gives, whatever the
    tree and the generator of the run are: two `completedJobs` share a file just when they have
    one `declarationName` and one directory, that is `p.project.between` agrees on their sources;
    and the text of the last job that shares a file is found there. -/
theorem run_keepsApart {t : FileTree} {cwd : Place} {config : Path} (hproper : t.Proper)
    (hload : Project.load t cwd config = .ok p.project) (w : World σ) : p.KeepsApart w := by
  have hanchored := Project.anchored_of_load hproper hload
  have hplaced : ∀ j ∈ completedJobs (p.run w).events, j.Placed p.project p.outputRoot := by
    intro j hj
    obtain ⟨e, he, rfl⟩ := exists_event_of_mem_completedJobs hj
    exact placed_of_mem_run hanchored w e he
  constructor
  · exact fun a ha b hb => Job.same_iff (hplaced a ha) (hplaced b hb)
  · exact fun a ha b hb => Job.destination_iff (hplaced a ha) (hplaced b hb)
  · exact fun a ha b hb => Job.destination_outputDir_iff hanchored (hplaced a ha) (hplaced b hb)
  · intro before a after hjobs hlast
    refine readText_of_last w hjobs fun b hb heq => ?_
    have hmem : ∀ j ∈ a :: after, j ∈ completedJobs (p.run w).events := fun j hj => by
      rw [hjobs]
      exact List.mem_append_right before hj
    obtain ⟨hdir, hname⟩ := (Job.destination_iff (hplaced b (hmem b (List.mem_cons_of_mem a hb)))
      (hplaced a (hmem a List.mem_cons_self))).mp heq
    exact hlast b hb hname hdir

/-! ### Two declarations of one name -/

/-- A source that declares a value and a type of one name. -/
def mergingTree : FileTree :=
  ⟨[(["p".toList], .directory),
    (["p".toList, "c".toList], .file (.text "\x7b\"include\":[\"a.ts\"]\x7d")),
    (["p".toList, "a.ts".toList], .file (.text "export const A=1;interface A\x7b\x7d")),
    (["t".toList], .directory),
    (["t".toList, "constant.md".toList], .file (.text "")),
    (["t".toList, "interface.md".toList], .file (.text ""))]⟩

/-- The documents of its project. -/
def merging : Documenter where
  project := ⟨⟨"/p/c".toList⟩, ⟨"/p".toList⟩, ⟨"/p".toList⟩, ["a.ts"], []⟩
  outputRoot := ⟨"docs".toList⟩
  templates := ⟨⟨"t".toList⟩⟩
  cwd := []

theorem load_merging : Project.load mergingTree [] ⟨"/p/c".toList⟩ = .ok merging.project := by
  with_unfolding_all rfl

/-- The run for that project. -/
theorem run_keepsApart_merging :
    mergingTree.Proper ∧ Project.load mergingTree [] ⟨"/p/c".toList⟩ = .ok merging.project ∧
      merging.KeepsApart ⟨mergingTree, .ofBackend fixedBackend, ()⟩ := by
  have hproper : mergingTree.Proper := ⟨by decide, by decide⟩
  exact ⟨hproper, load_merging, run_keepsApart hproper load_merging _⟩

/-- The job of the type. -/
def interfaceJob : Job :=
  ⟨"A", "interface A\x7b\x7d", .interface, ⟨"docs/".toList⟩, "A.md", ⟨"/p/a.ts".toList⟩⟩

/-- The job of the value. -/
def constantJob : Job :=
  ⟨"A", "export const A=1;", .constant, ⟨"docs/".toList⟩, "A.md", ⟨"/p/a.ts".toList⟩⟩

/-- The queue of that project with the jobs and sources that are left. -/
def mergingQueue (pending : List Job) (files : List Path) : JobQueue :=
  ⟨merging.project, merging.outputRoot, pending, files⟩

theorem jobs_merging :
    merging.jobs mergingTree = .ok (mergingQueue [] [⟨"/p/a.ts".toList⟩]) := by
  have hfiles : merging.project.sourceFiles mergingTree [] = .ok [⟨"/p/a.ts".toList⟩] := by
    with_unfolding_all rfl
  show JobQueue.start merging.project merging.outputRoot mergingTree [] = _
  rw [JobQueue.start, hfiles]
  rfl

theorem next_merging : (mergingQueue [] [⟨"/p/a.ts".toList⟩]).next mergingTree merging.cwd =
    some (.ok interfaceJob, mergingQueue [constantJob] []) := by
  have hjobs : JobQueue.jobsOf merging.project merging.outputRoot mergingTree []
      ⟨"/p/a.ts".toList⟩ = .ok [interfaceJob, constantJob] := by
    rfl
  simp only [mergingQueue, JobQueue.next, JobQueue.nextOf]
  rw [show merging.cwd = [] from rfl, hjobs]

/-- The run completes the documents of both declarations, by one path. -/
theorem run_merging_overwrites :
    (merging.run ⟨mergingTree, .ofBackend fixedBackend, ()⟩).result = .ok ⟨2, 0⟩ ∧
      completedJobs (merging.run ⟨mergingTree, .ofBackend fixedBackend, ()⟩).events =
        [interfaceJob, constantJob] ∧
      interfaceJob.rawText ≠ constantJob.rawText ∧
      interfaceJob.outputPath = constantJob.outputPath := by
  generalize hw : (⟨mergingTree, .ofBackend fixedBackend, ()⟩ : World Unit) = w
  have hstart : merging.jobs w.tree = .ok (mergingQueue [] [⟨"/p/a.ts".toList⟩]) := by
    rw [← hw]
    exact jobs_merging
  have hfirst : (mergingQueue [] [⟨"/p/a.ts".toList⟩]).next w.tree merging.cwd =
      some (.ok interfaceJob, mergingQueue [constantJob] []) := by
    rw [← hw]
    exact next_merging
  have hinterface : (merging.doJob interfaceJob w).result = .ok ⟨"docs/A.md".toList⟩ := by
    rw [← toOption_eq_some_iff, ← hw]
    decide +kernel
  -- the second job is done in the world that the first one leaves
  have hsecond : (mergingQueue [constantJob] []).next
      (merging.doJob interfaceJob w).world.tree merging.cwd =
        some (.ok constantJob, mergingQueue [] []) := rfl
  have hconstant : (merging.doJob constantJob (merging.doJob interfaceJob w).world).result =
      .ok ⟨"docs/A.md".toList⟩ := by
    rw [← toOption_eq_some_iff, ← hw]
    decide +kernel
  have hrun : merging.run w =
      merging.runFrom 0 ⟨0, 0⟩ (mergingQueue [] [⟨"/p/a.ts".toList⟩]) w := by
    rw [run, hstart]
  rw [hrun, runFrom_of_completed hfirst hinterface, runFrom_of_completed hsecond hconstant,
    runFrom_of_none rfl]
  exact ⟨rfl, rfl, by decide, rfl⟩

end Documenter

end DeclarationDocs

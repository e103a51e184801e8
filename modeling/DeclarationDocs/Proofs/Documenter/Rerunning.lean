import DeclarationDocs.Proofs.Documenter.InStep
import DeclarationDocs.Proofs.Documenter.Requeueing

namespace DeclarationDocs

open FileTree

/-!
# Running again

A run that is repeated over the tree that it has left does the same jobs with the same templates,
and so it writes the same documents in the same order: the tree is left as it is.

* `Documenter.Succeeds`, `Documenter.Repeatable` — what is asked of the first run and of its
  generator; `Documenter.Repeats` — what is said of the second run;
* `Documenter.repeats_of_serves` — by induction over the jobs, with any generator that has come
  from the one of the first run;
* `Documenter.run_again` — with the generator as it was before the first run, or is after it:
  `(p.run v).result = (p.run w).result`, the same `events`, and the same `entry?` at every place;
* `Documenter.not_repeats_detour_blocking_late` — without `LeavesSources`, without `LeavesTemplates`
  or with a backend that is made late a run may not be repeated.
-/

variable {σ : Type}

namespace Documenter

variable {p : Documenter} {w v : World σ} {items : List (Except Failure Job)} {config : Path}
  {stats : Tally} {answer : String → Except Failure String}

/-! ### One run -/

/-- A run that succeeds is the loop over what its queue holds, which are jobs. -/
theorem exists_perform_of_run (h : (p.run w).result = .ok stats) :
    ∃ s, p.jobs w.tree = .ok s ∧ p.run w = p.perform 0 ⟨0, 0⟩ (s.toList w.tree p.cwd) w ∧
      s.toList w.tree p.cwd = (startedJobs (p.run w).events).map .ok := by
  rcases p.run_traced w with ⟨e, -, hrun⟩ | ⟨s, f, hs, htraced⟩
  · rw [hrun] at h
    exact absurd h (by simp)
  · have hverdict := htraced.verdict
    rw [h] at hverdict
    cases hverdict with
    | done hitems => exact ⟨s, hs, p.run_eq_perform w hs, hitems⟩

/-- A run with known sources is the loop over what is made of them. -/
theorem run_of_itemsOf {files : List Path}
    (hfiles : p.project.sourceFiles w.tree p.cwd = .ok files)
    (hitems : JobQueue.itemsOf p.project p.outputRoot w.tree p.cwd files = items) :
    p.run w = p.perform 0 ⟨0, 0⟩ items w := by
  rw [p.run_eq_perform w (jobs_of_sourceFiles hfiles), JobQueue.toList_eq_itemsOf, hitems]

/-- A run whose documents lead to no template leaves the templates as they are, if it puts nothing
    in the place of one that is missing. -/
theorem places_of_run (hopens : w.tree.Opens p.cwd p.templates.root) (hfree : p.LeavesTemplates w)
    (hspare : ∀ job ∈ startedJobs (p.run w).events,
      p.templates.Spares p.cwd w.tree job.outputPath) (c : Category) :
    (p.run w).world.tree.entry? (p.templates.place p.cwd c) =
      w.tree.entry? (p.templates.place p.cwd c) := by
  obtain ⟨f, htrace, -, -⟩ := p.exists_trace w
  have hwritten : ∀ x ∈ documentsOf ((completedJobs (p.run w).events).zip (p.answers w)),
      p.templates.Spares p.cwd w.tree x.1 := by
    intro x hx
    obtain ⟨⟨job, answered⟩, hmem, rfl⟩ := List.mem_map.mp hx
    exact hspare job (htrace.completedJobs_subset (List.of_mem_zip hmem).1)
  exact (TemplateFolder.place_spared hopens (documents_run p w).becomes hwritten (hfree c)).2

/-! ### Two runs -/

/-- A run that succeeds with `stats`, over a tree as a disk holds it (`w.tree.Stored`) and a
    project that `Project.load` read from it.  Every document `Spares` the files of the template
    folder. -/
structure Succeeds (p : Documenter) (w : World σ) (config : Path) (stats : Tally) : Prop where
  stored : w.tree.Stored
  load : Project.load w.tree p.cwd config = .ok p.project
  result : (p.run w).result = .ok stats
  output : ∀ job ∈ startedJobs (p.run w).events,
    p.templates.Spares p.cwd w.tree job.outputPath

/-- A run that `Succeeds` with a generator whose answers depend on the prompt alone: it
    `Answers answer`. -/
structure Repeatable (p : Documenter) (w : World σ) (config : Path)
    (answer : String → Except Failure String) (stats : Tally) : Prop
    extends p.Succeeds w config stats where
  answers : w.generator.Answers answer

/-- The run over `v` has the result and the events of the run over `w`, and an equal `entry?` at
    every place. -/
structure Repeats (p : Documenter) (w v : World σ) : Prop where
  result : (p.run v).result = (p.run w).result
  events : (p.run v).events = (p.run w).events
  tree : ∀ q, (p.run v).world.tree.entry? q = (p.run w).world.tree.entry? q

/-- Without a folder of templates two runs over one tree do nothing. -/
theorem perform_of_not_opens (h : ¬ w.tree.Opens p.cwd p.templates.root) (htree : v.tree = w.tree)
    (index : Nat) (stats : Tally) (items : List (Except Failure Job)) :
    (p.perform index stats items v).result = (p.perform index stats items w).result ∧
      (p.perform index stats items v).events = (p.perform index stats items w).events ∧
      (p.perform index stats items w).world = w ∧ (p.perform index stats items v).world = v := by
  have hstep : ∀ job (items : List (Except Failure Job)) (a b : World σ), a = w ∧ b = v →
      (p.doJob job b).result = (p.doJob job a).result ∧
        (p.doJob job a).world = w ∧ (p.doJob job b).world = v := by
    rintro job - a b ⟨rfl, rfl⟩
    obtain ⟨e, hresolve⟩ := TemplateFolder.exists_resolve_eq_error h job.category
    rw [doJob_of_resolve hresolve, doJob_of_resolve (htree ▸ hresolve)]
    exact ⟨rfl, rfl, rfl⟩
  obtain ⟨hresult, hevents, -, hw, hv⟩ :=
    perform_alike (R := fun _ a b => a = w ∧ b = v) hstep index stats items ⟨rfl, rfl⟩
  exact ⟨hresult, hevents, hw, hv⟩

/-- **Two runs.**  The second one may have any generator that has come from the one of the first
    run, and the first run leaves such a generator. -/
theorem repeats_of_serves (h : p.Repeatable w config answer stats)
    (htemplates : p.LeavesTemplates w) (hsources : p.LeavesSources w)
    (hv : v.tree = (p.run w).world.tree) (hserves : w.generator.Serves v.generator) :
    p.Repeats w v ∧ w.generator.Serves (p.run w).world.generator := by
  obtain ⟨s, hs, hrun, hitems⟩ := exists_perform_of_run h.result
  obtain ⟨hs', hitems'⟩ := jobs_again h.stored h.load hsources hs
  rw [← hv] at hs' hitems'
  have hrun' : p.run v = p.perform 0 ⟨0, 0⟩ (s.toList w.tree p.cwd) v := by
    rw [p.run_eq_perform v hs', hitems']
  by_cases hopens : w.tree.Opens p.cwd p.templates.root
  · have hjobs : ∀ job, .ok job ∈ s.toList w.tree p.cwd →
        p.templates.Spares p.cwd w.tree job.outputPath := by
      intro job hjob
      rw [hitems] at hjob
      exact h.output job (by simpa using hjob)
    have hrest : p.Finishes (p.run w).world.tree (s.toList w.tree p.cwd) w :=
      ⟨0, ⟨0, 0⟩, stats, by rw [← hrun, h.result], by rw [← hrun]⟩
    have hstart : p.InStep w (p.run w).world.tree (s.toList w.tree p.cwd) w v :=
      ⟨⟨[], .refl _, hv ▸ .refl _, by simp⟩, hv ▸ .refl _, .inl rfl, hserves, hjobs, hrest⟩
    obtain ⟨hresult, hevents, items, hend⟩ := perform_alike
      (R := p.InStep w (p.run w).world.tree) (fun _ _ _ _ => inStep_doJob hopens
        (places_of_run hopens htemplates h.output) h.answers) 0 ⟨0, 0⟩ _ hstart
    rw [← hrun, ← hrun'] at hresult hevents hend
    refine ⟨⟨hresult, hevents, fun q => ?_⟩, hend.first⟩
    -- the second run has put the same texts over those of the first one
    obtain ⟨written, hfirst, hsecond, -⟩ := hend.documents
    have hfiles : (p.run v).world.tree.fileAt? = (p.run w).world.tree.fileAt? := by
      rw [hsecond.files, hfirst.files, overwritten_overwritten]
    exact entry?_eq_of_fileAt? (congrFun hfiles q) ⟨hend.settled q, hsecond.directories q⟩
  · have hworld : (p.run w).world = w := by
      rw [hrun]
      exact (perform_of_not_opens hopens rfl 0 ⟨0, 0⟩ _).2.2.1
    rw [hworld] at hv
    obtain ⟨hresult, hevents, -, hworld'⟩ := perform_of_not_opens hopens hv 0 ⟨0, 0⟩
      (s.toList w.tree p.cwd)
    rw [← hrun, ← hrun'] at hresult hevents
    rw [← hrun'] at hworld'
    refine ⟨⟨hresult, hevents, fun q => ?_⟩, .inl (by rw [hworld])⟩
    rw [hworld', hworld, hv]

/-- **Running again.**  If `p.run w` is `Repeatable`, puts nothing in the place of a missing
    template (`p.LeavesTemplates w`) and leaves no new way to a source (`p.LeavesSources w`), then
    a second run over `(p.run w).world.tree`, with the generator as it was before or is after the
    first one, repeats it (`p.Repeats w v`): the same result, the same events, and every file and
    directory as it is. -/
theorem run_again (h : p.Repeatable w config answer stats) (htemplates : p.LeavesTemplates w)
    (hsources : p.LeavesSources w) (hv : v.tree = (p.run w).world.tree)
    (hgenerator : v.generator = w.generator ∨ v.generator = (p.run w).world.generator) :
    p.Repeats w v := by
  refine (repeats_of_serves h htemplates hsources hv ?_).1
  rcases hgenerator with heq | heq
  · exact .inl heq
  · -- what the first run leaves is seen by repeating it with the generator that it had
    have hown : ({ w with tree := (p.run w).world.tree } : World σ).tree =
      (p.run w).world.tree := rfl
    exact heq ▸ (repeats_of_serves h htemplates hsources hown (.inl rfl)).2

/-! ### A run that is repeated -/

/-- A world with the given files, in which every text is the same. -/
def fixedWorld (t : FileTree) : World Unit := ⟨t, .ofBackend fixedBackend, ()⟩

/-- In such a world every answer is the same. -/
theorem fixedBackend_generate (prompt : String) (s : Unit) :
    (fixedBackend.generate prompt s).result.map Generated.content = .ok "text" :=
  rfl

/-- In such a world there is only the tree, the project and the jobs to look at. -/
theorem repeatable_fixedWorld {t : FileTree} {jobs : List Job} (hstored : t.Stored)
    (hload : Project.load t p.cwd config = .ok p.project)
    (hresult : (p.run (fixedWorld t)).result = .ok stats)
    (hstarted : startedJobs (p.run (fixedWorld t)).events = jobs)
    (hspare : ∀ job ∈ jobs, p.templates.Spares p.cwd t job.outputPath) :
    p.Repeatable (fixedWorld t) config (fun _ => .ok "text") stats where
  stored := hstored
  load := hload
  answers := by
    constructor
    · intro n e he
      exact absurd he (by simp [fixedWorld, Generator.ofBackend, Generator.ofFactory])
    · intro bk hbk
      rcases hbk with hnone | ⟨n, warnings, hmake⟩
      · exact absurd hnone (by simp [fixedWorld, Generator.ofBackend, Generator.ofFactory])
      · obtain ⟨rfl, -⟩ := Prod.mk.inj (Except.ok.inj hmake)
        exact fixedBackend_generate
  result := hresult
  output := hstarted ▸ hspare

/-- The run of the project with one template. -/
theorem run_sparse_fixed :
    (sparse.run (fixedWorld sparseTree)).result = .ok ⟨1, 1⟩ ∧
      startedJobs (sparse.run (fixedWorld sparseTree)).events = [bareJob, templatedJob] ∧
      (sparse.run (fixedWorld sparseTree)).world =
        (sparse.doJob templatedJob (fixedWorld sparseTree)).world := by
  have hdone : (sparse.doJob templatedJob (fixedWorld sparseTree)).result =
      .ok ⟨"docs/A.md".toList⟩ := by
    rfl
  have hrun : sparse.run (fixedWorld sparseTree) =
      (sparse.perform 1 ⟨0, 1⟩ [.ok templatedJob] (fixedWorld sparseTree)).after
        [.started 0 bareJob, .skipped 0 bareJob bareReason]
        [.skipped "B" .interface bareReason] := run_sparse ..
  rw [hrun, perform_of_completed hdone]
  exact ⟨rfl, rfl, rfl⟩

/-- The files of that project are as a disk holds them. -/
theorem stored_sparseTree : sparseTree.Stored := ⟨⟨by decide, by decide⟩, by decide⟩

/-- The project is what its project file says. -/
theorem load_sparse : Project.load sparseTree [] ⟨"/p/c".toList⟩ = .ok sparse.project := by
  with_unfolding_all rfl

/-- The documents of that project are no templates. -/
theorem spares_sparse : ∀ job ∈ [bareJob, templatedJob],
    sparse.templates.Spares sparse.cwd sparseTree job.outputPath := by
  simp only [List.forall_mem_cons, List.not_mem_nil, false_implies, implies_true, and_true]
  constructor <;> (intro c _; cases c <;> decide)

/-- That run is repeated. -/
theorem run_again_sparse :
    sparse.Repeatable (fixedWorld sparseTree) ⟨"/p/c".toList⟩ (fun _ => .ok "text") ⟨1, 1⟩ ∧
      sparse.LeavesTemplates (fixedWorld sparseTree) ∧
      sparse.LeavesSources (fixedWorld sparseTree) ∧
      sparse.Repeats (fixedWorld sparseTree) (sparse.run (fixedWorld sparseTree)).world := by
  obtain ⟨hresult, hstarted, hworld⟩ := run_sparse_fixed
  have hrepeatable := repeatable_fixedWorld stored_sparseTree load_sparse hresult hstarted
    spares_sparse
  have htemplates : sparse.LeavesTemplates (fixedWorld sparseTree) := by
    intro c
    rw [hworld]
    cases c <;> decide
  have hsources : sparse.LeavesSources (fixedWorld sparseTree) := by
    intro files hfiles f hf hup
    have hfound : sparse.project.sourceFiles
        (sparse.doJob templatedJob (fixedWorld sparseTree)).world.tree [] =
          .ok [⟨"/p/a.ts".toList⟩] := by
      with_unfolding_all rfl
    rw [hworld] at hfiles
    obtain rfl := Except.ok.inj (hfiles.symm.trans hfound)
    obtain rfl := List.mem_singleton.mp hf
    exact absurd hup (by decide +kernel)
  exact ⟨hrepeatable, htemplates, hsources,
    run_again hrepeatable htemplates hsources rfl (.inr rfl)⟩

/-! ### Runs that are not repeated -/

/-- A run is not repeated if the run over what it leaves has another result. -/
theorem not_repeats_of_result {first second : Except Failure Tally}
    (hworld : (p.run w).world = v) (hsecond : (p.run v).result = second)
    (hfirst : (p.run w).result = first) (hne : second ≠ first) :
    ¬ p.Repeats w (p.run w).world := by
  intro h
  have hsame := h.result
  rw [hworld, hsecond, hfirst] at hsame
  exact hne hsame

/-- A project with a second way to its source, through the directory of its documents. -/
def detourTree : FileTree :=
  ⟨[(["p".toList], .directory),
    (["p".toList, "c".toList], .file (.text "\x7b\"include\":[\"a.ts\",\"docs/../a.ts\"]\x7d")),
    (["p".toList, "a.ts".toList], .file (.text "enum A\x7b\x7d")),
    (["t".toList], .directory),
    (["t".toList, "enum.md".toList], .file (.text ""))]⟩

/-- The documents of that project. -/
def detour : Documenter where
  project := ⟨⟨"/p/c".toList⟩, ⟨"/p".toList⟩, ⟨"/p".toList⟩, ["a.ts", "docs/../a.ts"], []⟩
  outputRoot := ⟨"p/docs".toList⟩
  templates := ⟨⟨"t".toList⟩⟩
  cwd := []

/-- The job of the source as it is found at first. -/
def directJob : Job :=
  ⟨"A", "enum A\x7b\x7d", .enum, ⟨"p/docs/".toList⟩, "A.md", ⟨"/p/a.ts".toList⟩⟩

/-- The job of the source as it is found once there are documents. -/
def detourJob : Job :=
  ⟨"A", "enum A\x7b\x7d", .enum, ⟨"p/docs/docs/..".toList⟩, "A.md", ⟨"/p/docs/../a.ts".toList⟩⟩

/-- The world that its run leaves. -/
def detoured : World Unit := (detour.doJob directJob (fixedWorld detourTree)).world

/-- The run does one job. -/
theorem run_detour :
    (detour.run (fixedWorld detourTree)).result = .ok ⟨1, 0⟩ ∧
      startedJobs (detour.run (fixedWorld detourTree)).events = [directJob] ∧
      (detour.run (fixedWorld detourTree)).world = detoured := by
  have hfiles : detour.project.sourceFiles (fixedWorld detourTree).tree detour.cwd =
      .ok [⟨"/p/a.ts".toList⟩] := by
    with_unfolding_all rfl
  have hitems : JobQueue.itemsOf detour.project detour.outputRoot (fixedWorld detourTree).tree
      detour.cwd [⟨"/p/a.ts".toList⟩] = [.ok directJob] := rfl
  have hdone : (detour.doJob directJob (fixedWorld detourTree)).result =
      .ok ⟨"p/docs/A.md".toList⟩ := by
    rfl
  rw [run_of_itemsOf hfiles hitems, perform_of_completed hdone]
  exact ⟨rfl, rfl, rfl⟩

/-- Over what that leaves it does two. -/
theorem run_detoured : (detour.run detoured).result = .ok ⟨2, 0⟩ := by
  have hfiles : detour.project.sourceFiles detoured.tree detour.cwd =
      .ok [⟨"/p/a.ts".toList⟩, ⟨"/p/docs/../a.ts".toList⟩] := by
    with_unfolding_all rfl
  have hitems : JobQueue.itemsOf detour.project detour.outputRoot detoured.tree detour.cwd
      [⟨"/p/a.ts".toList⟩, ⟨"/p/docs/../a.ts".toList⟩] = [.ok directJob, .ok detourJob] := rfl
  have hdirect : (detour.doJob directJob detoured).result = .ok ⟨"p/docs/A.md".toList⟩ := by
    rfl
  have hdetour : (detour.doJob detourJob (detour.doJob directJob detoured).world).result =
      .ok ⟨"p/docs/docs/../A.md".toList⟩ := by
    rw [← toOption_eq_some_iff]
    decide +kernel
  rw [run_of_itemsOf hfiles hitems, perform_of_completed hdirect, perform_of_completed hdetour]
  rfl

/-- The documents of the project with one template, in the place of the missing one. -/
def blocking : Documenter := { sparse with outputRoot := ⟨"t/interface.md".toList⟩ }

/-- The job without a template, with its document there. -/
def blockedJob : Job := { bareJob with outputDir := ⟨"t/interface.md/".toList⟩ }

/-- The job with a template, with its document there. -/
def blockingJob : Job := { templatedJob with outputDir := ⟨"t/interface.md/".toList⟩ }

/-- The world that its run leaves, with a directory in that place. -/
def blocked : World Unit := (blocking.doJob blockingJob (fixedWorld sparseTree)).world

/-- The run passes over the job without a template and does the other. -/
theorem run_blocking :
    (blocking.run (fixedWorld sparseTree)).result = .ok ⟨1, 1⟩ ∧
      startedJobs (blocking.run (fixedWorld sparseTree)).events = [blockedJob, blockingJob] ∧
      (blocking.run (fixedWorld sparseTree)).world = blocked := by
  have hfiles : blocking.project.sourceFiles (fixedWorld sparseTree).tree blocking.cwd =
      .ok [⟨"/p/a.ts".toList⟩] := by
    with_unfolding_all rfl
  have hitems : JobQueue.itemsOf blocking.project blocking.outputRoot (fixedWorld sparseTree).tree
      blocking.cwd [⟨"/p/a.ts".toList⟩] = [.ok blockedJob, .ok blockingJob] := rfl
  have hskipped : blocking.doJob blockedJob (fixedWorld sparseTree) =
      ⟨.error bareReason, fixedWorld sparseTree, []⟩ := doJob_of_resolve rfl
  have hdone : (blocking.doJob blockingJob (fixedWorld sparseTree)).result =
      .ok ⟨"t/interface.md/A.md".toList⟩ := by
    rfl
  rw [run_of_itemsOf hfiles hitems,
    perform_of_skipped (e := bareReason) (by rw [hskipped]) rfl, hskipped,
    perform_of_completed hdone]
  exact ⟨rfl, rfl, rfl⟩

/-- The sources of the project are what they were. -/
theorem sourceFiles_blocked :
    blocking.project.sourceFiles blocked.tree blocking.cwd = .ok [⟨"/p/a.ts".toList⟩] := by
  with_unfolding_all rfl

/-- Over what that leaves, the job without a template ends the run. -/
theorem run_blocked : (blocking.run blocked).result = .error (.io .isDirectory) := by
  have hitems : JobQueue.itemsOf blocking.project blocking.outputRoot blocked.tree blocking.cwd
      [⟨"/p/a.ts".toList⟩] = [.ok blockedJob, .ok blockingJob] := rfl
  have hfailed : (blocking.doJob blockedJob blocked).result = .error (.io .isDirectory) := by
    rfl
  rw [run_of_itemsOf sourceFiles_blocked hitems, perform_of_failed hfailed rfl]

/-- A generator that says at its first attempt that a template is missing, and makes a backend at
    any later one. -/
def lateGenerator (attempts : Nat) : Generator Unit where
  make n := if n = 0 then .error bareReason else .ok (fixedBackend, [])
  attempts := attempts
  backend? := none

/-- The project with one template in a world with such a generator. -/
def lateWorld (attempts : Nat) : World Unit := ⟨sparseTree, lateGenerator attempts, ()⟩

/-- It has no other backend than `fixedBackend`. -/
theorem uses_lateGenerator {n : Nat} {b : Backend Unit} (h : (lateGenerator n).Uses b) :
    b = fixedBackend := by
  rcases h with hnone | ⟨m, warnings, hmake⟩
  · exact absurd hnone (by simp [lateGenerator])
  · simp only [lateGenerator] at hmake
    split at hmake
    · exact absurd hmake (by simp)
    · exact (Prod.mk.inj (Except.ok.inj hmake)).1.symm

/-- The run of that project. -/
theorem run_lateWorld (attempts : Nat) : sparse.run (lateWorld attempts) =
    (sparse.perform 1 ⟨0, 1⟩ [.ok templatedJob] (lateWorld attempts)).after
      [.started 0 bareJob, .skipped 0 bareJob bareReason]
      [.skipped "B" .interface bareReason] :=
  run_sparse ..

/-- The first run passes over both jobs: all that it leaves is an attempt that has been made. -/
theorem run_late :
    (sparse.run (lateWorld 0)).result = .ok ⟨0, 2⟩ ∧
      startedJobs (sparse.run (lateWorld 0)).events = [bareJob, templatedJob] ∧
      (sparse.run (lateWorld 0)).world = lateWorld 1 := by
  have hskipped : (sparse.doJob templatedJob (lateWorld 0)).result = .error bareReason := rfl
  rw [run_lateWorld, perform_of_skipped hskipped rfl]
  exact ⟨rfl, rfl, rfl⟩

/-- The second run does one of them. -/
theorem run_late_again : (sparse.run (lateWorld 1)).result = .ok ⟨1, 1⟩ := by
  have hdone : (sparse.doJob templatedJob (lateWorld 1)).result = .ok ⟨"docs/A.md".toList⟩ := by
    rfl
  rw [run_lateWorld, perform_of_completed hdone]
  rfl

/-- A new way to a source, something new in the place of a template, and a backend that cannot be
    made without that ending the run: a run with one of them is not repeated. -/
theorem not_repeats_detour_blocking_late :
    (detour.Repeatable (fixedWorld detourTree) ⟨"/p/c".toList⟩ (fun _ => .ok "text") ⟨1, 0⟩ ∧
        detour.LeavesTemplates (fixedWorld detourTree) ∧
        ¬ detour.Repeats (fixedWorld detourTree) (detour.run (fixedWorld detourTree)).world) ∧
      (blocking.Repeatable (fixedWorld sparseTree) ⟨"/p/c".toList⟩ (fun _ => .ok "text") ⟨1, 1⟩ ∧
        blocking.LeavesSources (fixedWorld sparseTree) ∧
        ¬ blocking.Repeats (fixedWorld sparseTree) (blocking.run (fixedWorld sparseTree)).world) ∧
      sparse.Succeeds (lateWorld 0) ⟨"/p/c".toList⟩ ⟨0, 2⟩ ∧
        (∀ b, (lateWorld 0).generator.Uses b → ∀ prompt s,
          (b.generate prompt s).result.map Generated.content = .ok "text") ∧
        sparse.LeavesTemplates (lateWorld 0) ∧ sparse.LeavesSources (lateWorld 0) ∧
        ¬ sparse.Repeats (lateWorld 0) (sparse.run (lateWorld 0)).world := by
  refine ⟨?detour, ?blocking, ?late⟩
  case detour =>
    obtain ⟨hresult, hstarted, hworld⟩ := run_detour
    have hload : Project.load detourTree [] ⟨"/p/c".toList⟩ = .ok detour.project := by
      with_unfolding_all rfl
    have hspare : ∀ job ∈ [directJob],
        detour.templates.Spares detour.cwd detourTree job.outputPath := by
      simp only [List.forall_mem_singleton]
      intro c _
      cases c <;> decide
    refine ⟨repeatable_fixedWorld ⟨⟨by decide, by decide⟩, by decide⟩ hload hresult hstarted hspare,
      fun c => ?_, not_repeats_of_result hworld run_detoured hresult (by simp)⟩
    rw [hworld]
    cases c <;> decide
  case blocking =>
    obtain ⟨hresult, hstarted, hworld⟩ := run_blocking
    have hspare : ∀ job ∈ [blockedJob, blockingJob],
        blocking.templates.Spares blocking.cwd sparseTree job.outputPath := by
      simp only [List.forall_mem_cons, List.not_mem_nil, false_implies, implies_true, and_true]
      constructor <;> (intro c _; cases c <;> decide)
    refine ⟨repeatable_fixedWorld stored_sparseTree load_sparse hresult hstarted hspare,
      fun files hfound f hf hup => ?_,
      not_repeats_of_result hworld run_blocked hresult (by simp)⟩
    rw [hworld] at hfound
    obtain rfl := Except.ok.inj (hfound.symm.trans sourceFiles_blocked)
    obtain rfl := List.mem_singleton.mp hf
    exact absurd hup (by decide +kernel)
  case late =>
    obtain ⟨hresult, hstarted, hworld⟩ := run_late
    refine ⟨⟨stored_sparseTree, load_sparse, hresult, hstarted ▸ spares_sparse⟩,
      fun b hb => uses_lateGenerator hb ▸ fixedBackend_generate, fun c hmissing => ?_,
      fun files hfound f hf hup => ?_,
      not_repeats_of_result hworld run_late_again hresult (by simp)⟩
    · -- nothing has been written
      rw [hworld]
      exact hmissing
    · rw [hworld] at hfound
      exact SourceScan.isFile_of_mem_run hfound hf

end Documenter

end DeclarationDocs

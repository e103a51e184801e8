import DeclarationDocs.Proofs.Documenter.Marking
import DeclarationDocs.Proofs.JobQueue.Reading

namespace DeclarationDocs

open FileTree

/-!
# What is done before a source is read

A run takes its jobs from a queue that reads the next source when it has nothing left of the
sources before.  So a source that cannot be read, or a job that fails, ends the run only when the
documents of all sources before it are there.

* `JobQueue.itemsOf_of_run` — what a queue makes of its sources are their blocks;
* `exists_of_getElem?_flatMap` — which source an item of a queue comes from;
* `Documenter.jobs_of_sourceFiles` — the queue that a run starts with;
* `Documenter.Settled` — a job of which a document was written, or that had none to write;
* `Documenter.Halted`, `Documenter.halted_run` — where a run that fails has stopped;
* `Documenter.HoldsBack`, `Documenter.LooksNoFurther` — which sources a queue has looked at;
* `Documenter.run_lazy` — both of the queue of a run, and `Halted` of a run that fails.
-/

variable {σ : Type}

/-! ### The source of an item -/

/-- The sources that a scan selects contribute to a queue what was said of each of them. -/
theorem JobQueue.itemsOf_of_run {project : Project} {outputRoot : Path} {t : FileTree}
    {cwd : Place} {files near : List Path} (hfiles : project.sourceFiles t cwd = .ok files)
    (hnear : near ⊆ files) :
    JobQueue.itemsOf project outputRoot t cwd near =
      near.flatMap (sourceBlock project outputRoot t cwd) := by
  refine List.flatMap_congr fun file hfile => (sourceBlock_eq ?_ ?_).symm
  · exact SourceScan.dialect_of_mem_run hfiles (hnear hfile)
  · exact SourceScan.isFile_of_mem_run hfiles (hnear hfile)

/-- An item of the contributions of a list is an item of one of them. -/
theorem exists_of_getElem?_flatMap {α β : Type} {f : α → List β} {xs : List α} {k : Nat} {y : β}
    (h : (xs.flatMap f)[k]? = some y) :
    ∃ m x r, xs[m]? = some x ∧ k = ((xs.take m).flatMap f).length + r ∧ (f x)[r]? = some y := by
  induction xs generalizing k with
  | nil => exact absurd h (by simp)
  | cons x xs ih =>
    rw [List.flatMap_cons] at h
    by_cases hk : k < (f x).length
    · rw [List.getElem?_append_left hk] at h
      exact ⟨0, x, k, rfl, by simp, h⟩
    · rw [List.getElem?_append_right (Nat.le_of_not_lt hk)] at h
      obtain ⟨m, z, r, hz, hr, hy⟩ := ih h
      refine ⟨m + 1, z, r, hz, ?_, hy⟩
      rw [List.take_succ_cons, List.flatMap_cons, List.length_append]
      omega

/-- The jobs of a source say that they are, and its only failure is that it is no text. -/
theorem of_mem_sourceBlock {project : Project} {outputRoot : Path} {t : FileTree} {cwd : Place}
    {file : Path} {item : Except Failure Job}
    (h : item ∈ sourceBlock project outputRoot t cwd file) :
    (∃ job, item = .ok job ∧ job.sourcePath = file) ∨
      item = .error (.io (.atPath file .notUtf8)) ∧
        sourceBlock project outputRoot t cwd file = [item] ∧
        ∃ f, t.readText cwd file = .error f := by
  cases hread : t.readText cwd file with
  | error f =>
    have hblock : sourceBlock project outputRoot t cwd file =
        [.error (.io (.atPath file .notUtf8))] := by
      simp only [sourceBlock, hread]
    rw [hblock, List.mem_singleton] at h
    exact .inr ⟨h, h ▸ hblock, f, rfl⟩
  | ok source =>
    simp only [sourceBlock, hread, List.mem_flatMap, List.mem_map] at h
    obtain ⟨d, -, c, -, rfl⟩ := h
    exact .inl ⟨_, rfl, rfl⟩

/-- Of texts that are put at one place, one is there in the end. -/
theorem FileTree.exists_of_mem_overwritten (cwd : Place) (files : Place → Option Content)
    {written : List (Path × String)} {x : Path × String} (hx : x ∈ written) :
    ∃ y ∈ written, destination cwd y.1 = destination cwd x.1 ∧
      overwritten cwd files written (destination cwd x.1) = some (.text y.2) := by
  induction written using List.reverseRecOn with
  | nil => exact absurd hx (by simp)
  | append_singleton written y ih =>
    by_cases hy : destination cwd y.1 = destination cwd x.1
    · refine ⟨y, List.mem_append_right _ (List.mem_singleton_self y), hy, ?_⟩
      rw [← hy, overwritten_append]
      exact Function.update_self ..
    · have hmem : x ∈ written := by
        rcases List.mem_append.mp hx with h | h
        · exact h
        · obtain rfl := List.mem_singleton.mp h
          exact absurd rfl hy
      obtain ⟨z, hz, hplace, htext⟩ := ih hmem
      refine ⟨z, List.mem_append_left _ hz, hplace, ?_⟩
      rw [overwritten_append, overwritten_of_forall_ne (by simpa using hy), htext]

namespace Documenter

/-- A queue starts with all sources before it. -/
theorem jobs_of_sourceFiles {p : Documenter} {t : FileTree} {files : List Path}
    (hfiles : p.project.sourceFiles t p.cwd = .ok files) :
    p.jobs t = .ok ⟨p.project, p.outputRoot, [], files⟩ := by
  show JobQueue.start p.project p.outputRoot t p.cwd = _
  rw [JobQueue.start, hfiles]
  rfl

/-! ### Jobs that are done with -/

/-- Of a job that is not the one a run has failed over, the end is told. -/
theorem Trace.completed_or_skipped {p : Documenter} {index n : Nat} {w : World σ}
    {events : List Event} {f : Option Failure} {job : Job} (h : p.Trace index w events f)
    (hjob : (startedJobs events)[n]? = some job)
    (hn : f = none ∨ n + 1 < (startedJobs events).length) :
    job ∈ completedJobs events ∨ ∃ e, .skipped (index + n) job e ∈ events := by
  have htold := h.end_of_started hjob
  generalize (p.doJob job _).result = result at htold
  cases htold with
  | completed hmem => exact .inl (List.mem_filterMap.mpr ⟨_, hmem, rfl⟩)
  | skipped he hmem => exact .inr ⟨_, hmem⟩
  | failed he hf hlast =>
    rcases hn with hn | hn
    · exact absurd (hn.symm.trans hf) (by simp)
    · omega

variable (p : Documenter)

/-- The job is completed, and its document can be read: it holds what was answered for this job,
    or for one that was completed with a document at the same place.  Or the job is skipped; if the
    generator fails for good only, then because there was no template. -/
def Settled (w : World σ) (job : Job) : Prop :=
  (job ∈ completedJobs (p.run w).events ∧
    ∃ c ∈ (completedJobs (p.run w).events).zip (p.answers w),
      destination p.cwd c.1.outputPath = destination p.cwd job.outputPath ∧
      (p.run w).world.tree.readText p.cwd job.outputPath = .ok c.2.text) ∨
  ∃ n e, .skipped n job e ∈ (p.run w).events ∧
    (w.generator.FailsWithin Failure.Fatal Failure.Fatal →
      p.templates.resolve (p.worldAt w n).tree p.cwd job.category = .error e)

variable {p} {w : World σ} {job : Job}

/-- A completed job is settled. -/
theorem settled_of_completed (h : job ∈ completedJobs (p.run w).events) : p.Settled w job := by
  refine .inl ⟨h, ?_⟩
  have hdocuments := documents_run p w
  -- the answer that goes with the job
  obtain ⟨k, hk, hget⟩ := List.mem_iff_getElem.mp h
  have hanswer : k < (p.answers w).length := hk.trans_le hdocuments.length_le
  have hmem : (job, (p.answers w)[k]) ∈ (completedJobs (p.run w).events).zip (p.answers w) := by
    rw [List.mem_iff_getElem]
    exact ⟨k, by rw [List.length_zip]; omega, by simp [hget]⟩
  have hx : (job.outputPath, (p.answers w)[k].text) ∈
      documentsOf ((completedJobs (p.run w).events).zip (p.answers w)) :=
    List.mem_map_of_mem (f := fun c : Job × Answer => (c.1.outputPath, c.2.text)) hmem
  obtain ⟨y, hy, hplace, htext⟩ := exists_of_mem_overwritten p.cwd w.tree.fileAt? hx
  obtain ⟨c, hc, rfl⟩ := List.mem_map.mp hy
  refine ⟨c, hc, hplace, ?_⟩
  obtain ⟨content, hlocate⟩ := hdocuments.becomes.paths _ hx
  have hfile := fileAt?_eq_some.mpr (locate_eq_ok hlocate).2
  rw [hdocuments.becomes.files, htext] at hfile
  obtain rfl := Option.some.inj hfile
  unfold FileTree.readText
  rw [hlocate]

/-- A skipped job is settled. -/
theorem settled_of_skipped {n : Nat} {e : Failure} (h : .skipped n job e ∈ (p.run w).events) :
    p.Settled w job :=
  .inr ⟨n, e, h, fun hgenerator => ((skipsUntemplated hgenerator n job e).mp h).2.1⟩

/-! ### Where a run stops -/

/-- The run has failed with `e` over the source `file`, which comes behind the sources `before`:
    every job of the `sourceBlock`s of those was started and is `Settled`.  Either `file` could
    not be read, or one of its jobs, the last that was started, has failed. -/
structure Halted (p : Documenter) (w : World σ) (before : List Path) (file : Path) (e : Failure) :
    Prop where
  started : before.flatMap (sourceBlock p.project p.outputRoot w.tree p.cwd) <+:
    (startedJobs (p.run w).events).map .ok
  settled : ∀ job,
    .ok job ∈ before.flatMap (sourceBlock p.project p.outputRoot w.tree p.cwd) → p.Settled w job
  reason :
    (∃ f, w.tree.readText p.cwd file = .error f) ∧ e = .io (.atPath file .notUtf8) ∧
      (startedJobs (p.run w).events).map .ok =
        before.flatMap (sourceBlock p.project p.outputRoot w.tree p.cwd) ∨
    ∃ done job, startedJobs (p.run w).events = done ++ [job] ∧ job.sourcePath = file ∧
      (p.doJob job (p.worldAfter done w)).result = .error e

/-- The first items of a queue are those of the sources up to the one that the next comes from. -/
theorem exists_halting {files : List Path} {items : List (Except Failure Job)} {jobs : List Job}
    {rest : List (Except Failure Job)} {item : Except Failure Job}
    {block : Path → List (Except Failure Job)} (hitems : items = files.flatMap block)
    (h : items = jobs.map .ok ++ item :: rest) :
    ∃ m file, files[m]? = some file ∧ item ∈ block file ∧
      (files.take m).flatMap block <+: jobs.map .ok ∧
      (block file = [item] → jobs.map .ok = (files.take m).flatMap block) := by
  have hget : (files.flatMap block)[jobs.length]? = some item := by
    rw [← hitems, h, List.getElem?_append_right (by simp)]
    simp
  obtain ⟨m, file, r, hfile, hlength, hr⟩ := exists_of_getElem?_flatMap hget
  have htaken : (files.take m).flatMap block <+: items :=
    ⟨(files.drop m).flatMap block,
      by rw [← List.flatMap_append, List.take_append_drop, hitems]⟩
  have hjobs : jobs.map .ok <+: items := h ▸ List.prefix_append ..
  have hfront : (files.take m).flatMap block <+: jobs.map .ok := by
    refine List.prefix_of_prefix_length_le htaken hjobs ?_
    rw [List.length_map]
    omega
  refine ⟨m, file, hfile, List.mem_of_getElem? hr, hfront, fun hblock => ?_⟩
  -- a block of one item begins with it
  have hzero : r = 0 := by
    obtain ⟨hlt, -⟩ := List.getElem?_eq_some_iff.mp hr
    rw [hblock, List.length_singleton] at hlt
    omega
  exact (hfront.eq_of_length (by rw [List.length_map]; omega)).symm

/-- **Where a run stops.**  A run that finds its sources and fails has stopped over one of them, and
    it has done with all jobs of the sources before that. -/
theorem halted_run {files : List Path} {e : Failure}
    (hfiles : p.project.sourceFiles w.tree p.cwd = .ok files)
    (hresult : (p.run w).result = .error e) :
    ∃ m file, files[m]? = some file ∧ p.Halted w (files.take m) file e := by
  have hjobs := jobs_of_sourceFiles hfiles
  rcases p.run_traced w with ⟨e', hs, -⟩ | ⟨s, f, hs, htraced⟩
  · exact absurd (hs.symm.trans hjobs) (by simp)
  · obtain rfl := Except.ok.inj (hs.symm.trans hjobs)
    have htrace := htraced.trace
    have hverdict := htraced.verdict
    rw [hresult, JobQueue.toList_eq_itemsOf, JobQueue.itemsOf_of_run hfiles (List.Subset.refl files)]
      at hverdict
    generalize hitems : files.flatMap (sourceBlock p.project p.outputRoot w.tree p.cwd) = items
      at hverdict
    -- a started job whose end is told is done with
    have hsettled : ∀ {n : Nat} {job : Job}, (startedJobs (p.run w).events)[n]? = some job →
        (f = none ∨ n + 1 < (startedJobs (p.run w).events).length) → p.Settled w job := by
      intro n job hjob hn
      rcases htrace.completed_or_skipped hjob hn with h | ⟨e, h⟩
      · exact settled_of_completed h
      · exact settled_of_skipped h
    cases hverdict with
    | unread h =>
      -- what comes next is no job, so it is the failure to read its source
      obtain ⟨m, file, hfile, hitem, hfront, halone⟩ := exists_halting hitems.symm h
      rcases of_mem_sourceBlock hitem with ⟨job, hjob, -⟩ | ⟨he, hblock, hread⟩
      · exact absurd hjob (by simp)
      · refine ⟨m, file, hfile, hfront, fun job hjob => ?_,
          .inl ⟨hread, Except.error.inj he, halone hblock⟩⟩
        have hstarted : job ∈ startedJobs (p.run w).events := by simpa using hfront.subset hjob
        obtain ⟨n, hget⟩ := List.mem_iff_getElem?.mp hstarted
        exact hsettled hget (.inl rfl)
    | failed h =>
      obtain ⟨done, last, hstarted, hfailed⟩ := htrace.of_failed
      rw [hstarted, List.map_append, List.map_singleton, List.append_assoc] at h
      obtain ⟨m, file, hfile, hitem, hfront, -⟩ := exists_halting hitems.symm h
      have hsource : last.sourcePath = file := by
        rcases of_mem_sourceBlock hitem with ⟨job, hjob, hsource⟩ | ⟨he, -, -⟩
        · obtain rfl := Except.ok.inj hjob
          exact hsource
        · exact absurd he (by simp)
      refine ⟨m, file, hfile, hfront.trans ?_, fun job hjob => ?_,
        .inr ⟨done, last, hstarted, hsource, hfailed⟩⟩
      · rw [hstarted, List.map_append]
        exact List.prefix_append ..
      · -- the job is one of those before the last
        have hdone : job ∈ done := by simpa using hfront.subset hjob
        obtain ⟨n, hget⟩ := List.mem_iff_getElem?.mp hdone
        obtain ⟨hlt, -⟩ := List.getElem?_eq_some_iff.mp hget
        refine hsettled (n := n) ?_ (.inr ?_)
        · rw [hstarted, List.getElem?_append_left hlt, hget]
        · rw [hstarted, List.length_append, List.length_singleton]
          omega

/-! ### Queues and runs -/

/-- Whatever the trees hold in which the calls are made, while `q` has a job `pending` the `files`
    that are before it are all sources behind that of the job. -/
def HoldsBack (p : Documenter) (files : List Path) (q : JobQueue) : Prop :=
  ∀ trees : List FileTree, ∀ job ∈ (q.through p.cwd trees).pending,
    ∃ i, files[i]? = some job.sourcePath ∧ (q.through p.cwd trees).files = files.drop (i + 1)

/-- In two trees `t` and `t'` that hold the same texts in the first `i` sources, `q` gives the
    same answers and is in the same state, until all that comes of these sources has been handed
    out. -/
def LooksNoFurther (p : Documenter) (t t' : FileTree) (files : List Path) (q : JobQueue) (i : Nat) :
    Prop :=
  (∀ file ∈ files.take i, t'.readText p.cwd file = t.readText p.cwd file) →
    ∀ n ≤ ((files.take i).flatMap (sourceBlock p.project p.outputRoot t p.cwd)).length,
      q.through p.cwd (.replicate n t') = q.through p.cwd (.replicate n t) ∧
        ∀ k < n, q.answer t' p.cwd k = q.answer t p.cwd k

/-- **Sources are read late.**  A queue that hands out the jobs of a source has not read the
    sources behind it: it answers the same and is in the same state whatever these hold
    (`LooksNoFurther`), and they are still before it (`HoldsBack`).  So a run that fails over a
    source has done with all jobs of the sources before (`Halted`). -/
theorem run_lazy {t : FileTree} {files : List Path}
    (hfiles : p.project.sourceFiles t p.cwd = .ok files) :
    ∃ q, p.jobs t = .ok q ∧ files.Nodup ∧ p.HoldsBack files q ∧
      (∀ t' i, p.project.sourceFiles t' p.cwd = .ok files →
        p.jobs t' = .ok q ∧ p.LooksNoFurther t t' files q i) ∧
      ∀ (w : World σ) (e : Failure), w.tree = t → (p.run w).result = .error e →
        ∃ m file, files[m]? = some file ∧ p.Halted w (files.take m) file e := by
  refine ⟨_, jobs_of_sourceFiles hfiles, SourceScan.nodup_of_run hfiles, ?back, ?further, ?halted⟩
  case back =>
    intro trees job hjob
    have hthrough : ∃ done, JobQueue.HasRead files done
        (JobQueue.through ⟨p.project, p.outputRoot, [], files⟩ p.cwd trees) :=
      JobQueue.hasRead_through files p.cwd trees
    obtain ⟨done, hread⟩ := hthrough
    obtain ⟨front, hfront⟩ := List.getLast?_eq_some_iff.mp (hread.pending job hjob)
    -- the source of the job is the last of those that were read
    refine ⟨front.length, ?_, ?_⟩
    · rw [hread.files_eq, hfront, List.append_assoc, List.getElem?_append_right le_rfl,
        Nat.sub_self]
      rfl
    · conv_rhs => rw [hread.files_eq, hfront]
      rw [List.drop_left']
      simp
  case further =>
    intro t' i hfiles'
    refine ⟨jobs_of_sourceFiles hfiles', fun hsame n hn => ?_⟩
    refine JobQueue.alike_through (List.take_append_drop i files).symm hsame ?_
    show n ≤ 0 + (JobQueue.itemsOf p.project p.outputRoot t p.cwd (files.take i)).length
    rw [Nat.zero_add, JobQueue.itemsOf_of_run hfiles (List.take_subset i files)]
    exact hn
  case halted =>
    rintro w e rfl hresult
    exact halted_run hfiles hresult

/-! ### A second source that is no text -/

/-- Two sources, the second of which holds what is given, and a template for a declaration of the
    first. -/
def pairTree (c : Content) : FileTree :=
  ⟨[(["p".toList], .directory),
    (["p".toList, "c".toList], .file (.text "\x7b\"include\":[\"a.ts\",\"b.ts\"]\x7d")),
    (["p".toList, "a.ts".toList], .file (.text "enum A\x7b\x7d interface B\x7b\x7d")),
    (["p".toList, "b.ts".toList], .file c),
    (["t".toList], .directory),
    (["t".toList, "enum.md".toList], .file (.text ""))]⟩

/-- The documents of its project. -/
def pair : Documenter where
  project := ⟨⟨"/p/c".toList⟩, ⟨"/p".toList⟩, ⟨"/p".toList⟩, ["a.ts", "b.ts"], []⟩
  outputRoot := ⟨"docs".toList⟩
  templates := ⟨⟨"t".toList⟩⟩
  cwd := []

/-- The sources of the project, whatever the second one holds. -/
def pairFiles : List Path := [⟨"/p/a.ts".toList⟩, ⟨"/p/b.ts".toList⟩]

/-- What is said of the second source. -/
def pairFault : Failure := .io (.atPath ⟨"/p/b.ts".toList⟩ .notUtf8)

theorem sourceFiles_pair :
    pair.project.sourceFiles (pairTree (.raw [255])) [] = .ok pairFiles := by
  with_unfolding_all rfl

/-- The second source ends the run. -/
theorem run_pair :
    (pair.run ⟨pairTree (.raw [255]), .ofBackend fixedBackend, ()⟩).result = .error pairFault := by
  have hjobs := jobs_of_sourceFiles sourceFiles_pair
  have hlist : JobQueue.itemsOf pair.project pair.outputRoot (pairTree (.raw [255])) pair.cwd
      pairFiles = [.ok bareJob, .ok templatedJob, .error pairFault] := rfl
  generalize hw : (⟨pairTree (.raw [255]), .ofBackend fixedBackend, ()⟩ : World Unit) = w
  have hbare : pair.doJob bareJob w = ⟨.error bareReason, w, []⟩ := by
    rw [← hw]
    exact doJob_of_resolve rfl
  have htemplated : (pair.doJob templatedJob w).result = .ok ⟨"docs/A.md".toList⟩ := by
    rw [← toOption_eq_some_iff, ← hw]
    decide +kernel
  rw [pair.run_eq_perform w (by rw [← hw]; exact hjobs), JobQueue.toList_eq_itemsOf,
    show w.tree = pairTree (.raw [255]) by rw [← hw], hlist,
    perform_of_skipped (e := bareReason) (by rw [hbare]) rfl, hbare,
    perform_of_completed htemplated]
  rfl

/-- While the first source is handed out it does not matter that the second one is no text, and
    then the run has stopped over that one. -/
theorem run_lazy_pair :
    pair.project.sourceFiles (pairTree (.raw [255])) [] = .ok pairFiles ∧
      ∃ q, pair.jobs (pairTree (.raw [255])) = .ok q ∧
        q.through [] (.replicate 2 (pairTree (.text "enum C\x7b\x7d"))) =
          q.through [] (.replicate 2 (pairTree (.raw [255]))) ∧
        ∃ m file, pairFiles[m]? = some file ∧
          pair.Halted ⟨pairTree (.raw [255]), .ofBackend fixedBackend, ()⟩ (pairFiles.take m) file
            pairFault := by
  have hother : pair.project.sourceFiles (pairTree (.text "enum C\x7b\x7d")) [] = .ok pairFiles := by
    with_unfolding_all rfl
  obtain ⟨q, hq, -, -, hfurther, hhalted⟩ := run_lazy (σ := Unit) sourceFiles_pair
  obtain ⟨-, hlooks⟩ := hfurther _ 1 hother
  refine ⟨sourceFiles_pair, q, hq, (hlooks ?same 2 ?two).1, hhalted _ _ rfl run_pair⟩
  case same =>
    intro file hfile
    obtain rfl := List.mem_singleton.mp hfile
    rfl
  case two => decide +kernel

end Documenter

end DeclarationDocs

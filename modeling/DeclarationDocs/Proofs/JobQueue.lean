import DeclarationDocs.JobQueue
import DeclarationDocs.Proofs.Scan.Collecting

namespace DeclarationDocs

/-!
# What comes out of a queue of jobs

A queue reads a source only when it has handed out the jobs of the sources before it.  Seen from
outside it is nevertheless one list, block by block, as long as the files do not change.

* `JobQueue.pull` — a call: what is answered, and the queue behind it;
* `JobQueue.answer s t cwd n` — what the call after `n` calls answers;
* `sourceBlock` — what one source contributes: its jobs, or the failure to read it;
* `JobQueue.answer_start` — the answers of `JobQueue.start` are `files.flatMap sourceBlock`, item by
  item, and nothing from then on.
-/

/-! ### Calls -/

namespace JobQueue

variable {s rest : JobQueue} {t : FileTree} {cwd : Place} {item : Except Failure Job}

/-- A call.  A queue that has nothing to answer has passed over all of its sources. -/
def pull (s : JobQueue) (t : FileTree) (cwd : Place) : Option (Except Failure Job) × JobQueue :=
  match s.next t cwd with
  | some (item, rest) => (some item, rest)
  | none => (none, { s with pending := [], files := [] })

/-- What the call after `n` calls answers. -/
def answer (s : JobQueue) (t : FileTree) (cwd : Place) : Nat → Option (Except Failure Job)
  | 0 => (s.pull t cwd).1
  | n + 1 => (s.pull t cwd).2.answer t cwd n

/-- A queue with nothing next has an empty list. -/
theorem toList_of_next_none (h : s.next t cwd = none) : s.toList t cwd = [] := by
  rw [toList]
  split <;> simp_all

/-- The list of a queue is what comes `next`, and the list of the rest. -/
theorem toList_of_next_some (h : s.next t cwd = some (item, rest)) :
    s.toList t cwd = item :: rest.toList t cwd := by
  rw [toList]
  split <;> simp_all

/-- The list of a queue is decided by what comes out next. -/
theorem toList_congr {s' : JobQueue} (h : s.next t cwd = s'.next t cwd) :
    s.toList t cwd = s'.toList t cwd := by
  cases hn : s.next t cwd with
  | none => rw [toList_of_next_none hn, toList_of_next_none (h ▸ hn)]
  | some r =>
    have hn' : s'.next t cwd = some r := h ▸ hn
    rw [toList_of_next_some hn, toList_of_next_some hn']

/-- A queue without jobs and sources stays silent. -/
theorem answer_of_empty (hp : s.pending = []) (hf : s.files = []) (n : Nat) :
    s.answer t cwd n = none := by
  have hnext : s.next t cwd = none := by simp [next, hp, hf, nextOf]
  have hpull : s.pull t cwd = (none, { s with pending := [], files := [] }) := by
    simp [pull, hnext]
  have hself : ({ s with pending := [], files := [] } : JobQueue) = s := by
    cases s
    simp_all
  induction n with
  | zero => rw [answer, hpull]
  | succ n ih => rw [answer, hpull, hself, ih]

/-- **The answers of a queue** are its list, and nothing from the end of the list on. -/
theorem answer_eq_getElem? (s : JobQueue) (t : FileTree) (cwd : Place) (n : Nat) :
    s.answer t cwd n = (s.toList t cwd)[n]? := by
  induction n generalizing s with
  | zero =>
    unfold answer pull
    cases h : s.next t cwd with
    | none => rw [toList_of_next_none h]; rfl
    | some r => rw [toList_of_next_some h]; rfl
  | succ n ih =>
    unfold answer pull
    cases h : s.next t cwd with
    | none => rw [toList_of_next_none h]; exact answer_of_empty rfl rfl n
    | some r =>
      rw [toList_of_next_some h, List.getElem?_cons_succ]
      exact ih r.2

/-! ### The list of a queue -/

/-- What the sources of a queue contribute, one after the other: the jobs of a source, or the one
    failure to read it. -/
def itemsOf (project : Project) (outputRoot : Path) (t : FileTree) (cwd : Place)
    (files : List Path) : List (Except Failure Job) :=
  files.flatMap fun file =>
    match jobsOf project outputRoot t cwd file with
    | .ok jobs => jobs.map .ok
    | .error e => [.error e]

variable {project : Project} {outputRoot : Path} {files : List Path}

/-- What a source contributes is decided by what is read there. -/
theorem jobsOf_congr {t' : FileTree} {file : Path}
    (h : t'.readText cwd file = t.readText cwd file) :
    jobsOf project outputRoot t' cwd file = jobsOf project outputRoot t cwd file := by
  unfold jobsOf readSource
  rw [h]

/-- Jobs that were read are handed out first. -/
theorem toList_pending (jobs : List Job) :
    toList ⟨project, outputRoot, jobs, files⟩ t cwd =
      jobs.map .ok ++ toList ⟨project, outputRoot, [], files⟩ t cwd := by
  induction jobs with
  | nil => rfl
  | cons j js ih =>
    have hnext : next ⟨project, outputRoot, j :: js, files⟩ t cwd =
        some (.ok j, ⟨project, outputRoot, js, files⟩) := rfl
    rw [toList_of_next_some hnext, ih]
    rfl

/-- **The list of a queue.**  By induction on the sources: one without jobs is passed over, one
    that cannot be read gives its failure, and every other one fills the queue, which empties
    before the next source is read. -/
theorem toList_eq_itemsOf (project : Project) (outputRoot : Path) (t : FileTree) (cwd : Place)
    (files : List Path) :
    toList ⟨project, outputRoot, [], files⟩ t cwd = itemsOf project outputRoot t cwd files := by
  induction files with
  | nil => exact toList_of_next_none rfl
  | cons file files ih =>
    show _ = (match jobsOf project outputRoot t cwd file with
      | .ok jobs => jobs.map .ok
      | .error e => [.error e]) ++ itemsOf project outputRoot t cwd files
    cases hjobs : jobsOf project outputRoot t cwd file with
    | error e =>
      have hnext : next ⟨project, outputRoot, [], file :: files⟩ t cwd =
          some (.error e, ⟨project, outputRoot, [], files⟩) := by
        simp only [next, nextOf, hjobs]
      rw [toList_of_next_some hnext, ih]
      rfl
    | ok jobs =>
      cases jobs with
      | nil =>
        -- a source without jobs is passed over in the same call
        have hnext : next ⟨project, outputRoot, [], file :: files⟩ t cwd =
            next ⟨project, outputRoot, [], files⟩ t cwd := by
          simp only [next, nextOf, hjobs]
        rw [toList_congr hnext, ih]
        rfl
      | cons j js =>
        have hnext : next ⟨project, outputRoot, [], file :: files⟩ t cwd =
            some (.ok j, ⟨project, outputRoot, js, files⟩) := by
          simp only [next, nextOf, hjobs]
        rw [toList_of_next_some hnext, toList_pending, ih]
        rfl

end JobQueue

/-! ### What a source contributes -/

/-- What a source declares, read in the dialect of its name. -/
def parsed (file : Path) (source : String) : List Declaration :=
  (Dialect.ofPath? file).elim [] fun dialect => TypeScript.declarations dialect source

/-- What a source contributes: the failure to read it as text, or a job for every category of
    every declaration. -/
def sourceBlock (project : Project) (outputRoot : Path) (t : FileTree) (cwd : Place)
    (file : Path) : List (Except Failure Job) :=
  match t.readText cwd file with
  | .error _ => [.error (.io (.atPath file .notUtf8))]
  | .ok source =>
    (parsed file source).flatMap fun d =>
      d.categories.map fun c =>
        .ok
          { declarationName := d.name
            rawText := d.rawText
            category := c
            outputDir := outputRoot.join ((project.relativePath file).parent.getD ⟨[]⟩)
            outputFileName := d.name ++ ".md"
            sourcePath := file }

variable {project : Project} {outputRoot : Path} {t : FileTree} {cwd : Place} {file : Path}

/-- A regular file can only fail to be text. -/
theorem readText_of_isFile {e : IoFault} (h : t.isFile cwd file = true)
    (he : t.readText cwd file = .error e) : e = .notUtf8 := by
  unfold FileTree.isFile at h
  unfold FileTree.readText at he
  split at h
  · rename_i place c hl
    rw [hl] at he
    cases c with
    | text s => exact absurd he (by simp)
    | raw bytes => exact (Except.error.inj he).symm
  · exact absurd h (by simp)

/-- The block of a regular file with a dialect is what a queue makes of it. -/
theorem sourceBlock_eq (h : (Dialect.ofPath? file).isSome = true)
    (hfile : t.isFile cwd file = true) :
    sourceBlock project outputRoot t cwd file =
      match JobQueue.jobsOf project outputRoot t cwd file with
      | .ok jobs => jobs.map .ok
      | .error e => [.error e] := by
  obtain ⟨dialect, hd⟩ := Option.isSome_iff_exists.mp h
  unfold sourceBlock JobQueue.jobsOf JobQueue.readSource
  simp only [hd]
  cases hr : t.readText cwd file with
  | error e =>
    obtain rfl := readText_of_isFile hfile hr
    rfl
  | ok source =>
    simp only [Except.map, parsed, hd, Option.elim_some, SourceFile.jobs, List.map_flatMap,
      List.map_map]
    rfl

/-- **The answers of a fresh queue.**  `JobQueue.start` succeeds just when `project.sourceFiles`
    does, and fails as it does; then call `n` of the queue is answered by item `n` of the
    `sourceBlock`s of the files, one block after the other, and by nothing from their end on. -/
theorem JobQueue.answer_start (project : Project) (outputRoot : Path) (t : FileTree)
    (cwd : Place) :
    (JobQueue.start project outputRoot t cwd).map (fun s => s.answer t cwd) =
      (project.sourceFiles t cwd).map fun files n =>
        (files.flatMap (sourceBlock project outputRoot t cwd))[n]? := by
  unfold JobQueue.start
  cases hfiles : project.sourceFiles t cwd with
  | error e => rfl
  | ok files =>
    -- the scan selects regular files with a dialect only
    have hblocks : files.flatMap (sourceBlock project outputRoot t cwd) =
        JobQueue.itemsOf project outputRoot t cwd files := by
      apply List.flatMap_congr
      intro file hfile
      exact sourceBlock_eq (SourceScan.dialect_of_mem_run hfiles hfile)
        (SourceScan.isFile_of_mem_run hfiles hfile)
    show Except.ok _ = Except.ok _
    congr 1
    funext n
    show answer _ t cwd n = (files.flatMap (sourceBlock project outputRoot t cwd))[n]?
    rw [JobQueue.answer_eq_getElem?, JobQueue.toList_eq_itemsOf, hblocks]

end DeclarationDocs

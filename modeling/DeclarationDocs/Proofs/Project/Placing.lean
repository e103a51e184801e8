import DeclarationDocs.Proofs.JobQueue
import DeclarationDocs.Proofs.Project.Anchored
import DeclarationDocs.Proofs.TypeScript.Slicing

namespace DeclarationDocs

/-!
# Where the documents of a project are put

The path of a document is put together from the output root, the place of its source within the
project, and the name of its declaration.  Component by component nothing gets lost in that: no
part takes the place of another, and the name of a declaration is one file name.

* `documents_named` — the document of a declaration is one file name, below every directory;
* `Job.Titled` — a document is named for its declaration, whatever the project is;
* `Job.Placed` — how the path of a document reads;
* `JobQueue.placed_of_jobsOf` — the jobs of one source, in whatever state the files are;
* `JobQueue.Sound` — what `next` preserves; `JobQueue.placed_of_mem_toList` — every job of a
  project.
-/

open DeclarationDocs.Path TypeScript

variable {project : Project} {outputRoot : Path} {t : FileTree} {cwd : Place} {j : Job}
  {file : Path}

/-! ### Names of documents -/

/-- The document of a declaration has a file name of its own: it is one component. -/
theorem documentName_component {name : String} (h : '/' ∉ name.toList) :
    '/' ∉ (documentName name).toList ∧
      componentOf (documentName name).toList = some (.name (documentName name).toList) := by
  have hchars : (documentName name).toList = name.toList ++ ".md".toList := by
    simp [documentName]
  rw [hchars]
  refine ⟨?_, ?_⟩
  · intro hmem
    rcases List.mem_append.mp hmem with hmem | hmem
    · exact h hmem
    · exact absurd hmem (by decide)
  · -- it is too long for `.` and `..`
    have hlong : ∀ s : List Char, s.length < 3 → ¬ name.toList ++ ['.', 'm', 'd'] = s := by
      rintro s hs rfl
      rw [List.length_append] at hs
      exact absurd hs (by simp)
    simp [componentOf, isVoid, hlong]

/-- Below whatever directory, a document adds its file name and nothing else. -/
theorem components_join_document {name : String} (h : '/' ∉ name.toList) (dir : Path) :
    (dir.join (Path.ofString (documentName name))).components =
      dir.components ++ [.name (documentName name).toList] := by
  obtain ⟨hslash, hname⟩ := documentName_component h
  -- the name of the document is a tidy path by itself
  have hdocument : TidySegments [(documentName name).toList] :=
    .singleton hslash (not_isVoid_of_name hname)
  show (Path.join _ ⟨joinSegments [(documentName name).toList]⟩).components = _
  rw [Tidy.components_join ⟨_, hdocument, rfl⟩, hdocument.components]
  simp [hname]

/-- So does the document of a declaration that was read. -/
theorem components_join_documentName {name : String} (h : IsName name.toList) (dir : Path) :
    (dir.join (Path.ofString (documentName name))).components =
      dir.components ++ [.name (documentName name).toList] :=
  components_join_document (fun hmem => (h.safe _ hmem).1 rfl) dir

/-- Documents have the same name just when their declarations have. -/
theorem documentName_inj {a b : String} : documentName a = documentName b ↔ a = b := by
  unfold documentName
  constructor
  · intro h
    have hlist := congrArg String.toList h
    exact String.toList_inj.mp (by simpa using hlist)
  · rintro rfl
    rfl

/-- **File names.**  The names of the `declarations` of a source are not empty and mean nothing in
    a path.  So a job `j ∈ u.jobs outputRoot` for one of them has the document `x.name ++ ".md"`,
    and its `outputPath` adds that one component to the directory of the job, whichever that is. -/
theorem documents_named (d : Dialect) (source : String) :
    (∀ x ∈ declarations d source,
      x.name ≠ "" ∧ ∀ c ∈ x.name.toList, c ≠ '/' ∧ c ≠ '.' ∧ c ≠ '\x00') ∧
    ∀ (u : SourceFile) (outputRoot : Path), u.declarations = declarations d source →
      ∀ j ∈ u.jobs outputRoot, ∃ x ∈ declarations d source,
        j.declarationName = x.name ∧ j.outputFileName = x.name ++ ".md" ∧
        ∀ dir : Path, { j with outputDir := dir }.outputPath.components =
          dir.components ++ [.name (x.name ++ ".md").toList] := by
  refine ⟨fun x hx => ?_, fun u outputRoot hu j hj => ?_⟩
  · have hname := isName_of_mem_declarations hx
    refine ⟨fun hempty => hname.ne_nil (by simp [hempty]), fun c hc => ?_⟩
    exact hname.safe c hc
  · obtain ⟨x, hx, hj⟩ := List.mem_flatMap.mp hj
    obtain ⟨c, -, rfl⟩ := List.mem_map.mp hj
    rw [hu] at hx
    exact ⟨x, hx, rfl, rfl, components_join_documentName (isName_of_mem_declarations hx)⟩

/-! ### Placed jobs -/

/-- The document of a job stands in the directory of the job and bears the name of its
    declaration. -/
def Job.Titled (j : Job) : Prop :=
  j.outputPath.components =
    j.outputDir.components ++ [.name (documentName j.declarationName).toList]

/-- How the path of a document reads: the output root, the components between a root of the
    project and the source, and the name of the document. -/
structure Job.Placed (project : Project) (outputRoot : Path) (j : Job) : Prop where
  outputDir : j.outputDir.components = outputRoot.components ++ project.between j.sourcePath
  outputPath : j.outputPath.components =
    j.outputDir.components ++ [.name (documentName j.declarationName).toList]

/-- A placed job writes to `outputRoot`, `project.between` its source, and its document's name. -/
theorem Job.Placed.components (h : j.Placed project outputRoot) :
    j.outputPath.components = outputRoot.components ++ project.between j.sourcePath ++
      [.name (documentName j.declarationName).toList] := by
  rw [h.outputPath, h.outputDir]

namespace JobQueue

/-- A job of a source is for one of its declarations and one category of that. -/
theorem exists_of_mem_jobsOf {jobs : List Job}
    (hjobs : jobsOf project outputRoot t cwd file = .ok jobs) (hj : j ∈ jobs) :
    ∃ dialect source, ∃ d ∈ declarations dialect source, ∃ c ∈ d.categories,
      j = { declarationName := d.name
            rawText := d.rawText
            category := c
            outputDir := outputRoot.join ((project.relativePath file).parent.getD ⟨[]⟩)
            outputFileName := documentName d.name
            sourcePath := file } := by
  unfold jobsOf at hjobs
  split at hjobs
  · obtain rfl := Except.ok.inj hjobs
    exact absurd hj (by simp)
  · rename_i dialect _
    obtain ⟨u, hu, rfl⟩ := map_eq_ok_iff.mp hjobs
    unfold readSource at hu
    split at hu
    · exact absurd hu (by simp)
    · rename_i source _
      obtain rfl := Except.ok.inj hu
      obtain ⟨d, hd, hj⟩ := List.mem_flatMap.mp hj
      obtain ⟨c, hc, rfl⟩ := List.mem_map.mp hj
      exact ⟨dialect, source, d, hd, c, hc, rfl⟩

/-- The document of a job bears the name of its declaration, whatever the project is. -/
theorem titled_of_jobsOf {jobs : List Job}
    (hjobs : jobsOf project outputRoot t cwd file = .ok jobs) (hj : j ∈ jobs) : j.Titled := by
  obtain ⟨dialect, source, d, hd, c, -, rfl⟩ := exists_of_mem_jobsOf hjobs hj
  exact components_join_documentName (isName_of_mem_declarations hd) _

/-- The jobs of a source are placed, in whatever state the files are when it is read. -/
theorem placed_of_jobsOf (h : project.Anchored) {jobs : List Job}
    (hjobs : jobsOf project outputRoot t cwd file = .ok jobs) (hj : j ∈ jobs) :
    j.Placed project outputRoot := by
  refine ⟨?_, titled_of_jobsOf hjobs hj⟩
  obtain ⟨dialect, source, d, -, c, -, rfl⟩ := exists_of_mem_jobsOf hjobs hj
  obtain ⟨htidy, hbetween⟩ := Project.relativePath_spec h file
  obtain ⟨habove, hcomponents⟩ := tidy_parent htidy
  rw [habove.components_join, hcomponents, hbetween]

/-- A queue of a project, all jobs of which are placed. -/
structure Sound (project : Project) (outputRoot : Path) (s : JobQueue) : Prop where
  project_eq : s.project = project
  outputRoot_eq : s.outputRoot = outputRoot
  pending : ∀ j ∈ s.pending, j.Placed project outputRoot

variable {s rest : JobQueue} {item : Except Failure Job}

/-- A queue is sound when it is started. -/
theorem sound_start (h : start project outputRoot t cwd = .ok s) : s.Sound project outputRoot := by
  obtain ⟨files, -, hs⟩ := bind_eq_ok_iff.mp h
  obtain rfl := Except.ok.inj hs
  exact ⟨rfl, rfl, by simp⟩

/-- Reading on for the next job. -/
theorem sound_nextOf (h : project.Anchored) {files : List Path}
    (hnext : nextOf project outputRoot t cwd files = some (item, rest)) :
    (∀ j, item = .ok j → j.Placed project outputRoot) ∧ rest.Sound project outputRoot := by
  induction files with
  | nil => exact absurd hnext (by simp [nextOf])
  | cons file files ih =>
    unfold nextOf at hnext
    split at hnext
    · obtain ⟨rfl, rfl⟩ := Prod.mk.inj (Option.some.inj hnext)
      exact ⟨by simp, ⟨rfl, rfl, by simp⟩⟩
    · exact ih hnext
    · rename_i j js hjobs
      obtain ⟨rfl, rfl⟩ := Prod.mk.inj (Option.some.inj hnext)
      have hplaced := fun j' hj' => placed_of_jobsOf (j := j') h hjobs hj'
      refine ⟨fun j' hj' => ?_, ⟨rfl, rfl, fun j' hj' => hplaced j' (List.mem_cons_of_mem j hj')⟩⟩
      obtain rfl := Except.ok.inj hj'
      exact hplaced j List.mem_cons_self

/-- **One call.**  A sound queue hands out a placed job and stays sound, also when the files have
    changed since the last call. -/
theorem Sound.next (hs : s.Sound project outputRoot) (h : project.Anchored)
    (hnext : s.next t cwd = some (item, rest)) :
    (∀ j, item = .ok j → j.Placed project outputRoot) ∧ rest.Sound project outputRoot := by
  obtain ⟨hproject, hroot, hpending⟩ := hs
  unfold JobQueue.next at hnext
  split at hnext
  · rename_i j js hp
    obtain ⟨rfl, rfl⟩ := Prod.mk.inj (Option.some.inj hnext)
    rw [hp] at hpending
    refine ⟨fun j' hj' => ?_, ⟨hproject, hroot, fun j' hj' => ?_⟩⟩
    · obtain rfl := Except.ok.inj hj'
      exact hpending j List.mem_cons_self
    · exact hpending j' (List.mem_cons_of_mem j hj')
  · rw [hproject, hroot] at hnext
    exact sound_nextOf h hnext

/-- **All calls.**  By recursion along the queue. -/
theorem placed_of_mem_toList (h : project.Anchored) (hs : s.Sound project outputRoot)
    (hj : .ok j ∈ s.toList t cwd) : j.Placed project outputRoot := by
  induction s using toList.induct t cwd with
  | case1 s hnone =>
    rw [toList_of_next_none hnone] at hj
    exact absurd hj (by simp)
  | case2 s item rest hsome ih =>
    obtain ⟨hplaced, hrest⟩ := hs.next h hsome
    rw [toList_of_next_some hsome] at hj
    rcases List.mem_cons.mp hj with hj | hj
    · exact hplaced j hj.symm
    · exact ih hrest hj

end JobQueue

end DeclarationDocs

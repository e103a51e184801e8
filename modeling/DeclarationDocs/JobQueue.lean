import DeclarationDocs.Job
import DeclarationDocs.Project
import DeclarationDocs.TypeScript.Program

/-!
# The jobs of a project, one after the other

A source is read only when every job of the source before it has been handed out, so a fault in
one source costs nothing that was done for the sources before it.

* `JobQueue.next`: the next job or failure, and the queue behind it;
* `JobQueue.toList`: all of them, as long as the files do not change.
-/

namespace DeclarationDocs

/-- The jobs still to come: those of sources that were read, and the sources not yet read. -/
structure JobQueue where
  project : Project
  outputRoot : Path
  pending : List Job
  files : List Path
deriving Repr

namespace JobQueue

/-- The queue of all jobs of a project. -/
def start (project : Project) (outputRoot : Path) (t : FileTree) (cwd : Place) :
    Except Failure JobQueue := do
  .ok ⟨project, outputRoot, [], ← project.sourceFiles t cwd⟩

/-- Read a source. -/
def readSource (project : Project) (t : FileTree) (cwd : Place) (dialect : Dialect) (p : Path) :
    Except Failure SourceFile :=
  match t.readText cwd p with
  | .error e => .error (.io (.atPath p e))
  | .ok source =>
    .ok { path := p
          relativePath := project.relativePath p
          declarations := TypeScript.declarations dialect source }

/-- The jobs of the source at a path; what is no source has none. -/
def jobsOf (project : Project) (outputRoot : Path) (t : FileTree) (cwd : Place) (p : Path) :
    Except Failure (List Job) :=
  match Dialect.ofPath? p with
  | none => .ok []
  | some dialect => (readSource project t cwd dialect p).map fun u => u.jobs outputRoot

/-- What comes out of a queue next, and the queue that is left. -/
abbrev Step := Option (Except Failure Job × JobQueue)

/-- Read sources until there is a job or a failure. -/
def nextOf (project : Project) (outputRoot : Path) (t : FileTree) (cwd : Place) :
    List Path → Step
  | [] => none
  | p :: files =>
    match jobsOf project outputRoot t cwd p with
    | .error e => some (.error e, ⟨project, outputRoot, [], files⟩)
    | .ok [] => nextOf project outputRoot t cwd files
    | .ok (j :: js) => some (.ok j, ⟨project, outputRoot, js, files⟩)

/-- The next job or failure. -/
def next (s : JobQueue) (t : FileTree) (cwd : Place) : Step :=
  match s.pending with
  | j :: js => some (.ok j, { s with pending := js })
  | [] => nextOf s.project s.outputRoot t cwd s.files

/-- Reading on leaves fewer sources. -/
theorem nextOf_files_lt {project : Project} {outputRoot : Path} {t : FileTree} {cwd : Place}
    {files : List Path} {item : Except Failure Job} {s : JobQueue}
    (h : nextOf project outputRoot t cwd files = some (item, s)) :
    s.files.length < files.length := by
  induction files with
  | nil => simp [nextOf] at h
  | cons p files ih =>
    rw [nextOf] at h
    split at h
    · injection h with h; injection h with _ h; subst h; simp
    · have := ih h; simp; omega
    · injection h with h; injection h with _ h; subst h; simp

/-- Every step leaves fewer sources, or the same sources and fewer jobs. -/
theorem next_lt {s : JobQueue} {t : FileTree} {cwd : Place} {item : Except Failure Job}
    {s' : JobQueue} (h : s.next t cwd = some (item, s')) :
    s'.files.length < s.files.length
      ∨ s'.files.length = s.files.length ∧ s'.pending.length < s.pending.length := by
  rw [next] at h
  split at h
  · rename_i hp
    injection h with h; injection h with _ h; subst h
    right; simp [hp]
  · exact .inl (nextOf_files_lt h)

/-- Everything that comes out of a queue while the files stay as they are. -/
def toList (s : JobQueue) (t : FileTree) (cwd : Place) : List (Except Failure Job) :=
  match _h : s.next t cwd with
  | none => []
  | some (item, rest) => item :: rest.toList t cwd
termination_by (s.files.length, s.pending.length)
decreasing_by
  have := next_lt _h
  simp only [Prod.lex_def]
  omega

end JobQueue

end DeclarationDocs

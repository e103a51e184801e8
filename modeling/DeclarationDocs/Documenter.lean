import DeclarationDocs.Document
import DeclarationDocs.Generator
import DeclarationDocs.JobQueue
import DeclarationDocs.TemplateFolder

/-!
# Documenting a project

Job by job: find the template, ask for the text, write the document.  A job without a template
is skipped; every other failure ends the run, and documents already written stay.

* `Documenter.run`: do the jobs and tell how it went;
* `Documenter.plan`: the jobs, and which of them have a template.
-/

namespace DeclarationDocs

/-- What a run works for, and where. -/
structure Documenter where
  project : Project
  outputRoot : Path
  templates : TemplateFolder
  /-- Where relative paths start. -/
  cwd : Place

/-- What happens in a run; jobs are counted from 0. -/
inductive Event where
  | started (index : Nat) (job : Job)
  | completed (index : Nat) (job : Job) (path : Path)
  | skipped (index : Nat) (job : Job) (reason : Failure)

/-- How many jobs a run did and skipped. -/
structure Tally where
  generated : Nat
  skipped : Nat
deriving DecidableEq, Repr

/-- A job and whether there is a template for it. -/
structure PlanEntry where
  job : Job
  hasTemplate : Bool
deriving DecidableEq, Repr

/-- What a run changes: the files, the generator, and the state of its backend. -/
structure World (σ : Type) where
  tree : FileTree
  generator : Generator σ
  state : σ

/-- What a run leaves. -/
structure RunReport (σ : Type) where
  result : Except Failure Tally
  world : World σ
  events : List Event
  warnings : List Warning

namespace RunReport

variable {σ : Type}

/-- A report with something that happened before. -/
def after (r : RunReport σ) (events : List Event) (warnings : List Warning) :
    RunReport σ :=
  { r with events := events ++ r.events, warnings := warnings ++ r.warnings }

end RunReport

/-- What doing one job leaves. -/
structure JobReport (σ : Type) where
  result : Except Failure Path
  world : World σ
  warnings : List Warning

namespace Documenter

variable {σ : Type}

/-- All jobs. -/
def jobs (p : Documenter) (t : FileTree) : Except Failure JobQueue :=
  JobQueue.start p.project p.outputRoot t p.cwd

/-- Write the text of a job. -/
def deliver (p : Documenter) (job : Job) (text : String) (w : World σ) (warnings : List Warning) :
    JobReport σ :=
  let (t, r) := writeDocument w.tree p.cwd job.outputDir job.outputFileName text
  ⟨r.mapError .io, { w with tree := t }, warnings⟩

/-- Do one job. -/
def doJob (p : Documenter) (job : Job) (w : World σ) : JobReport σ :=
  match p.templates.resolve w.tree p.cwd job.category with
  | .error e => ⟨.error e, w, []⟩
  | .ok template =>
    let (i, ready) := w.generator.makeReady w.state
    let w : World σ := ⟨w.tree, i, ready.state⟩
    match ready.result with
    | .error e => ⟨.error e, w, ready.warnings⟩
    | .ok () =>
      let (i, generated) := w.generator.generate job.rawText template w.state
      let w : World σ := ⟨w.tree, i, generated.state⟩
      let warnings := ready.warnings ++ generated.warnings
      match generated.result with
      | .error e => ⟨.error e, w, warnings⟩
      | .ok text => p.deliver job text w warnings

/-- Do the jobs that are left, the first of which has the given index. -/
def runFrom (p : Documenter) (index : Nat) (stats : Tally) (s : JobQueue) (w : World σ) :
    RunReport σ :=
  match _h : s.next w.tree p.cwd with
  | none => ⟨.ok stats, w, [], []⟩
  | some (.error e, _) => ⟨.error e, w, [], []⟩
  | some (.ok job, rest) =>
    let r := p.doJob job w
    match r.result with
    | .ok path =>
      (p.runFrom (index + 1) { stats with generated := stats.generated + 1 } rest r.world).after
        [.started index job, .completed index job path] r.warnings
    | .error e =>
      if e.isRecoverable then
        (p.runFrom (index + 1) { stats with skipped := stats.skipped + 1 } rest r.world).after
          [.started index job, .skipped index job e]
          (r.warnings ++ [.skipped job.declarationName job.category e])
      else ⟨.error e, r.world, [.started index job], r.warnings⟩
termination_by (s.files.length, s.pending.length)
decreasing_by all_goals
  have := JobQueue.next_lt _h
  simp only [Prod.lex_def]
  omega

/-- Do all jobs. -/
def run (p : Documenter) (w : World σ) : RunReport σ :=
  match p.jobs w.tree with
  | .error e => ⟨.error e, w, [], []⟩
  | .ok s => p.runFrom 0 ⟨0, 0⟩ s w

/-- All jobs with a mark for those that have a template, or the first failure. -/
def plan (p : Documenter) (t : FileTree) : Except Failure (List PlanEntry) := do
  let available := p.templates.available t p.cwd
  let s ← p.jobs t
  let jobs ← (s.toList t p.cwd).mapM id
  .ok (jobs.map fun j => ⟨j, available.contains j.category⟩)

end Documenter

end DeclarationDocs

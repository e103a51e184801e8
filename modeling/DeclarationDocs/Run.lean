import DeclarationDocs.Console
import DeclarationDocs.Service.Client
import DeclarationDocs.Settings.Load

/-!
# A run

Load the configuration and the project, then list the jobs or do them.  What is asked for on the
command line goes over the configuration.

* `RunRequest.apply`: the effective configuration;
* `run`: the run and everything that comes of it.
-/

namespace DeclarationDocs

/-- What is asked for on the command line. -/
structure RunRequest where
  config : Option Path := none
  project : Option Path := none
  output : Option Path := none
  templates : Option Path := none
  provider : Option String := none
  model : Option String := none
  dryRun : Bool := false
deriving DecidableEq, Repr

namespace RunRequest

/-- The configuration with the options over it. -/
def override (o : RunRequest) (c : Config) : Config :=
  { service := { c.service with
      provider := o.provider.getD c.service.provider
      model := o.model.or c.service.model }
    templatesDir := o.templates.or c.templatesDir
    outputDir := o.output.getD c.outputDir }

/-- The configuration with the options over it, if it makes sense. -/
def apply (o : RunRequest) (c : Config) : Except Failure Config := do
  (o.override c).validate
  .ok (o.override c)

/-- The project file if none is named. -/
def defaultProject : Path := Path.ofString "tsconfig.json"

/-- The project file. -/
def projectPath (o : RunRequest) : Path := o.project.getD defaultProject

end RunRequest

/-- Where a run takes place: the files, what is around it, and the network. -/
structure Stage where
  surroundings : Surroundings
  tree : FileTree
  exchange : Http.Exchange

/-- What comes of a run. -/
structure RunOutcome where
  result : Except Failure Unit
  lines : List String
  tree : FileTree
  exchange : Http.Exchange
  warnings : List Warning

namespace RunOutcome

/-- A run that failed before it did anything. -/
def failed (s : Stage) (e : Failure) : RunOutcome := ⟨.error e, [], s.tree, s.exchange, []⟩

end RunOutcome

/-- The generator for the configured service. -/
def generatorFor (s : Surroundings) (c : Config) : Generator Http.Exchange :=
  .ofFactory fun _ =>
    (ServiceClient.create s.names c.service (s.valueOf? "OPENAI_API_KEY")).map
      fun (client, warnings) => (client.backend, warnings)

/-- The documenter for a project and a configuration. -/
def documenterFor (s : Surroundings) (t : FileTree) (c : Config) (project : Project) :
    Documenter :=
  { project, outputRoot := c.outputDir, cwd := s.cwd
    templates := .locate t s.cwd s.executable c.templatesDir }

/-- What a run works with: the configuration and the project. -/
def prepare (o : RunRequest) (s : Stage) : Except Failure (Config × Project) := do
  let c ← o.apply (← Config.load s.surroundings s.tree o.config)
  let project ← Project.load s.tree s.surroundings.cwd o.projectPath
  .ok (c, project)

/-- List the jobs. -/
def listJobs (s : Stage) (p : Documenter) : RunOutcome :=
  match p.plan s.tree with
  | .error e => .failed s e
  | .ok plan => ⟨.ok (), Console.planLines plan, s.tree, s.exchange, []⟩

/-- Do the jobs. -/
def doJobs (s : Stage) (p : Documenter) (i : Generator Http.Exchange) : RunOutcome :=
  let r := p.run ⟨s.tree, i, s.exchange⟩
  ⟨r.result.map fun _ => (), r.events.map Console.eventLine, r.world.tree, r.world.state,
    r.warnings⟩

/-- A run. -/
def run (o : RunRequest) (s : Stage) : RunOutcome :=
  match prepare o s with
  | .error e => .failed s e
  | .ok (c, project) =>
    let p := documenterFor s.surroundings s.tree c project
    if o.dryRun then listJobs s p else doJobs s p (generatorFor s.surroundings c)

end DeclarationDocs

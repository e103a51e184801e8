import DeclarationDocs.Json.Relaxed
import DeclarationDocs.Scan

/-!
# Projects

A project file says which sources belong to a project and below which directory they lie.  It is
written in relaxed JSON, and what it says about other tools does not matter.

* `Project.load`: reading a project file;
* `Project.sourceFiles`: the sources;
* `Project.relativePath`: the place of a source within the project.
-/

namespace DeclarationDocs

/-- A project. -/
structure Project where
  configPath : Path
  /-- The directory of the project file. -/
  root : Path
  /-- The directory below which documents follow the structure of the sources. -/
  sourceRoot : Path
  includes : List String
  excludes : List String
deriving DecidableEq, Repr

namespace Project

/-- The options of the compiler that matter. -/
def compilerOptionsShape : Shape :=
  .record "CompilerOptions" [("rootDir", .optional .text, none)]

/-- What a project file looks like. -/
def fileShape : Shape :=
  .record "ProjectFile"
    [("include", .list .text, some (.list [])),
     ("exclude", .list .text, some (.list [])),
     ("compilerOptions", compilerOptionsShape, some (.record [.absent]))]

/-- What a project file says. -/
structure File where
  includes : List String
  excludes : List String
  rootDir : Option String
deriving DecidableEq, Repr

/-- The content of a project file. -/
def File.read (text : String) : Except JsonFault File :=
  match fileShape.read (Json.Relaxed.strict text.toList) with
  | .error e => .error (.shape e)
  | .ok d =>
    .ok ⟨(d.field 0).asList.map Datum.asText, (d.field 1).asList.map Datum.asText,
      ((d.field 2).field 0).asTextOption⟩

/-- The project that a file at `configPath` describes. -/
def ofFile (configPath : Path) (f : File) : Project :=
  let root := configPath.parent.getD ⟨['.']⟩
  { configPath, root
    sourceRoot := f.rootDir.elim root fun dir => (root.join (Path.ofString dir)).normalize
    includes := f.includes
    excludes := f.excludes }

/-- Read the project file at a path. -/
def load (t : FileTree) (cwd : Place) (p : Path) : Except Failure Project :=
  if !t.isFile cwd p then .error (.projectNotFound p)
  else
    match t.canonical cwd p with
    | .error e => .error (.io e)
    | .ok configPath =>
      match t.readText cwd configPath with
      | .error e => .error (.io e)
      | .ok text =>
        match File.read text with
        | .error e => .error (.config (.projectFile configPath e))
        | .ok f => if f.includes.isEmpty then .error (.emptyInclude p) else .ok (ofFile configPath f)

/-- The sources of a project. -/
def sourceFiles (project : Project) (t : FileTree) (cwd : Place) : Except Failure (List Path) :=
  SourceScan.run
    { root := project.root, includes := project.includes, excludes := project.excludes } t cwd

/-- The path of a source below the source root, else below the project's directory, else its
name alone. -/
def relativePath (project : Project) (file : Path) : Path :=
  match file.stripPrefix project.sourceRoot with
  | some p => p
  | none =>
    match file.stripPrefix project.root with
    | some p => p
    | none => ⟨file.fileName.getD []⟩

end Project

end DeclarationDocs

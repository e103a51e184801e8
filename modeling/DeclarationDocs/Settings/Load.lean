import DeclarationDocs.Settings.Config
import DeclarationDocs.Settings.Extract
import DeclarationDocs.Settings.Variable
import DeclarationDocs.Toml.Document

/-!
# Loading the configuration

The layers are the defaults, the file of the user, a file of the project or one that is named,
and the environment; each goes over those before it, key by key.

* `Config.load`: the effective configuration;
* `Config.userFile?`: where the file of the user is.
-/

namespace DeclarationDocs

/-- What a run finds around it: where it starts, the variables of its environment, the path of its
own executable if that is known, and how domain names are turned into ASCII. -/
structure Surroundings where
  cwd : Place
  environment : Variables
  executable : Option Path := none
  names : Url.DomainNames := .ascii

/-- The value of a variable. -/
def Surroundings.valueOf? (s : Surroundings) (name : String) : Option String :=
  s.environment.lookup name

/-! ### Layers -/

namespace Setting

mutual

/-- A TOML value as a setting. -/
def ofToml (o : Origin) : Toml → Setting
  | .text s => .scalar o (.text s)
  | .integer i => .scalar o (.signed i)
  | .float x => .scalar o (.float x)
  | .bool b => .scalar o (.bool b)
  | .date => .table o []
  | .array vs => .list o (ofTomls o vs)
  | .table ms => .table o (ofTomlMembers o ms)

/-- TOML values as settings. -/
def ofTomls (o : Origin) : List Toml → List Setting
  | [] => []
  | v :: vs => ofToml o v :: ofTomls o vs

/-- The members of a TOML table as settings. -/
def ofTomlMembers (o : Origin) : List (String × Toml) → List (String × Setting)
  | [] => []
  | (k, v) :: ms => (k, ofToml o v) :: ofTomlMembers o ms

end

/-- The layer of the defaults. -/
def defaults : Setting :=
  let optional := fun (s : Option String) => Setting.scalar .builtIn (s.elim .absent .text)
  let text := fun (s : String) => Setting.scalar .builtIn (.text s)
  let number := fun (n : Nat) => Setting.scalar .builtIn (.unsigned n)
  let c := Config.default
  .table .builtIn
    [("llm", .table .builtIn
      [("provider", text c.service.provider),
       ("model", optional c.service.model),
       ("api_base", optional c.service.apiBase),
       ("timeout_secs", number c.service.timeoutSecs),
       ("max_new_tokens", number c.service.maxNewTokens)]),
     ("templates", .table .builtIn [("dir", optional (c.templatesDir.map Path.text))]),
     ("output", .table .builtIn [("dir", text c.outputDir.text)])]

end Setting

/-- A component as it is written. -/
def Component.chars : Component → List Char
  | root => ['/']
  | current => ['.']
  | parent => ['.', '.']
  | name n => n

/-- The way from one list of components to another, both of which start at the root. -/
def Component.way : (base target : List Component) → List Component
  | [], target => target
  | base, [] => List.replicate base.length .parent
  | b :: base, c :: target =>
    if b = c then way base target else List.replicate (base.length + 1) .parent ++ c :: target

/-- A file as messages show it: by the way to it from where the run starts, if that is shorter
than its absolute path. -/
def Surroundings.shownPath (s : Surroundings) (p : Path) : Path :=
  let here := FileTree.pathOf s.cwd
  let absolute := here.join p
  let way := Component.way here.components absolute.components
  if way.length < absolute.components.length then
    way.foldl (fun q c => q.join ⟨c.chars⟩) ⟨[]⟩
  else absolute

/-- The layer in a file. -/
def readLayer (s : Surroundings) (t : FileTree) (p : Path) : Except LayerFault Setting :=
  let shown := s.shownPath p
  match t.readText s.cwd p with
  | .error _ => .error (.notUtf8 shown)
  | .ok text =>
    match Toml.parse text.toList with
    | none => .error (.malformed shown)
    | some ms => .ok (.table (.file shown) (Setting.ofTomlMembers (.file shown) ms))

/-- Layers over a setting, or the faults of those that cannot be read, the latest first. -/
def mergeLayers (base : Setting) (layers : List (Except LayerFault Setting)) :
    Except (List LayerFault) Setting :=
  layers.foldl (fun acc layer =>
    match acc, layer with
    | .ok s, .ok l => .ok (s.merge l)
    | .ok _, .error f => .error [f]
    | .error fs, .ok _ => .error fs
    | .error fs, .error f => .error (f :: fs)) (.ok base)

namespace Config

/-! ### Files -/

/-- The name of the directory of the user's file. -/
def applicationName : String := "weavedoc"

/-- The file of a project. -/
def projectFile : Path := Path.ofString ".weavedoc.toml"

/-- The directory of the user's file. -/
def userDirectory? (s : Surroundings) : Option Path :=
  let base :=
    match s.valueOf? "XDG_CONFIG_HOME" with
    | some dir => some (Path.ofString dir)
    | none => (s.valueOf? "HOME").map fun home => (Path.ofString home).join (.ofString ".config")
  base.map fun p => p.join (.ofString applicationName)

/-- The user's file. -/
def userFile? (s : Surroundings) : Option Path :=
  (userDirectory? s).map fun p => p.join (.ofString "config.toml")

/-- The files that are layers, in order; a file that is named has to be there. -/
def layerFiles (s : Surroundings) (t : FileTree) (named : Option Path) :
    Except Failure (List Path) :=
  let userFile := (userFile? s).toList.filter (t.isFile s.cwd)
  match named with
  | some p =>
    if t.isFile s.cwd p then .ok (userFile ++ [p]) else .error (.config (.fileNotFound p))
  | none => .ok (userFile ++ [projectFile].filter (t.isFile s.cwd))

/-! ### Loading -/

/-- The configuration that a merged setting describes. -/
def ofSetting (v : Setting) : Except Failure Config :=
  match v.extract shape with
  | .ok d => .ok (ofDatum d)
  | .error e => .error (.config (.setting e))

/-- The effective configuration. -/
def load (s : Surroundings) (t : FileTree) (named : Option Path) : Except Failure Config := do
  let files ← layerFiles s t named
  let merged ←
    match mergeLayers Setting.defaults (files.map (readLayer s t)) with
    | .ok v => Except.ok v
    | .error fs => .error (.config (.unreadable fs))
  let c ← ofSetting (merged.merge (Setting.ofVariables s.environment))
  c.validate
  .ok c

end Config

end DeclarationDocs

import DeclarationDocs.Failure

/-!
# Templates

The template of a category is a file of a directory, named for the category.  Its content is
taken as it is.  The directory is the one that is asked for, else `templates` beside the
executable if there is such a directory, else `templates` below the working directory.

* `TemplateFolder.locate`: the directory;
* `TemplateFolder.resolve`: the text of a template;
* `TemplateFolder.available`: the categories with a template.
-/

namespace DeclarationDocs

/-- A directory of templates. -/
structure TemplateFolder where
  root : Path
deriving DecidableEq, Repr

namespace TemplateFolder

/-- The directory that is used when no other is named. -/
def defaultRoot : Path := ⟨"templates".toList⟩

/-- The directory `templates` beside the executable, if there is one. -/
def besideExecutable? (t : FileTree) (cwd : Place) (executable : Option Path) : Option Path :=
  ((executable.bind Path.parent).map (·.join defaultRoot)).filter (t.isDirectory cwd)

/-- The store in the directory `dir`, or in the one beside the executable, or in the usual one. -/
def locate (t : FileTree) (cwd : Place) (executable dir : Option Path) : TemplateFolder :=
  ⟨(dir.or (besideExecutable? t cwd executable)).getD defaultRoot⟩

/-- The path of a template. -/
def fileFor (s : TemplateFolder) (c : Category) : Path :=
  s.root.join (Path.ofString c.fileName)

/-- The text of a template. -/
def resolve (s : TemplateFolder) (t : FileTree) (cwd : Place) (c : Category) :
    Except Failure String :=
  match t.readText cwd (s.fileFor c) with
  | .ok text => .ok text
  | .error .notFound => .error (.templateNotFound c (s.fileFor c))
  | .error e => .error (.io e)

/-- Whether there is a template for a category. -/
def contains (s : TemplateFolder) (t : FileTree) (cwd : Place) (c : Category) : Bool :=
  t.isFile cwd (s.fileFor c)

/-- The categories with a template. -/
def available (s : TemplateFolder) (t : FileTree) (cwd : Place) : List Category :=
  Category.all.filter (s.contains t cwd)

end TemplateFolder

end DeclarationDocs

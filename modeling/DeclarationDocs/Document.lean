import DeclarationDocs.FileTree

/-!
# Writing documents

A document is written into a directory that is made if it is missing.
-/

namespace DeclarationDocs

/-- Write a document and tell where it is.  Directories that were made before a fault stay. -/
def writeDocument (t : FileTree) (cwd : Place) (dir : Path) (fileName text : String) :
    FileTree × Except IoFault Path :=
  match t.createDirectories cwd dir with
  | (t, .error e) => (t, .error e)
  | (t, .ok ()) =>
    let p := dir.join (Path.ofString fileName)
    match t.write cwd p text with
    | .ok t => (t, .ok p)
    | .error e => (t, .error e)

end DeclarationDocs

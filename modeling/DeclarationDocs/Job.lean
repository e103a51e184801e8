import DeclarationDocs.Category

/-!
# Jobs

One declaration, documented through one template into one file.  The directory of a document
below the output root is the directory of its source below the source root.
-/

namespace DeclarationDocs

/-- One document to be written. -/
structure Job where
  declarationName : String
  rawText : String
  category : Category
  outputDir : Path
  outputFileName : String
  /-- The file that holds the declaration. -/
  sourcePath : Path
deriving DecidableEq, Repr, Inhabited

/-- The path of the document. -/
def Job.outputPath (j : Job) : Path := j.outputDir.join (Path.ofString j.outputFileName)

/-- The name of the document of a declaration. -/
def documentName (declaration : String) : String := declaration ++ ".md"

/-- The jobs of one source file, in the order in which they are done. -/
def SourceFile.jobs (u : SourceFile) (outputRoot : Path) : List Job :=
  u.declarations.flatMap fun d =>
    d.categories.map fun c =>
      { declarationName := d.name
        rawText := d.rawText
        category := c
        outputDir := outputRoot.join u.relativeDir
        outputFileName := documentName d.name
        sourcePath := u.path }

end DeclarationDocs

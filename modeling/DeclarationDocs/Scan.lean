import DeclarationDocs.Dialect
import DeclarationDocs.Failure
import DeclarationDocs.Text.WhiteSpace

/-!
# Scanning for source files

The sources of a project are the files that its include patterns lead to, less what the exclude
patterns match.  An include pattern that names a directory stands for everything below it; an
exclude pattern also excludes what is below what it matches.  Nothing below a `node_modules`
directory is a source.

* `SourceScan.keeps`: whether a file that was found counts;
* `SourceScan.run`: the sources in order, each once.
-/

namespace DeclarationDocs

/-- What to look for, and where. -/
structure SourceScan where
  root : Path
  includes : List String := ["**/*"]
  excludes : List String := []
deriving Repr

namespace SourceScan

/-- The names of directories that never hold sources. -/
def skippedNames : List (List Char) := ["node_modules".toList]

/-- A text without the slashes at its end. -/
def trimSlashes (s : List Char) : List Char := Text.dropEndWhile (· == '/') s

/-- A pattern, or the failure that names it as it was written. -/
def compile (written : String) (pattern : List Char) : Except Failure (List Glob.Token) :=
  match Glob.parse pattern with
  | .ok ts => .ok ts
  | .error e => .error (.pattern written e.message)

/-- The two patterns of an exclude entry: the entry itself, and what is below it. -/
def excludePatternsOf (entry : String) : Except Failure (List (List Glob.Token)) := do
  let trimmed := trimSlashes entry.toList
  .ok [← compile entry trimmed, ← compile entry (trimmed ++ "/**".toList)]

/-- The patterns of the exclude entries. -/
def excludePatterns (entries : List String) : Except Failure (List (List Glob.Token)) :=
  (entries.mapM excludePatternsOf).map List.flatten

/-- The pattern that an include entry stands for. -/
def expand (s : SourceScan) (t : FileTree) (cwd : Place) (entry : String) : List Char :=
  let pattern := entry.toList
  if (Path.mk pattern).isAbsolute then pattern
  else
    let root := trimSlashes (Glob.escape s.root.chars)
    let hasWildcard := pattern.any fun c => c == '*' || c == '?' || c == '['
    if !hasWildcard && t.isDirectory cwd (s.root.join ⟨pattern⟩) then
      root ++ '/' :: trimSlashes pattern ++ "/**/*".toList
    else root ++ '/' :: pattern

/-- The path by which a file is judged. -/
def relative (s : SourceScan) (p : Path) : Path := (p.stripPrefix s.root).getD p

/-- Whether a file below the root counts, given the compiled exclude patterns. -/
def keeps (s : SourceScan) (excluded : List (List Glob.Token)) (p : Path) : Bool :=
  let r := s.relative p
  (Dialect.ofPath? p).isSome
    && !(r.names.any fun n => skippedNames.contains n)
    && !(excluded.any fun ts =>
      Glob.accepts ts (r.chars.map fun c => if c = '\\' then '/' else c))

/-- The files that an include entry leads to, in order. -/
def found (s : SourceScan) (t : FileTree) (cwd : Place) (entry : String) :
    Except Failure (List Path) :=
  match Glob.find t cwd (s.expand t cwd entry) with
  | .error e => .error (.pattern entry e.message)
  | .ok paths => .ok ((paths.filter (t.isFile cwd)).mergeSort Path.le)

/-- Add a path behind others unless it is among them. -/
def addNew (paths : List Path) (p : Path) : List Path :=
  if paths.any p.same then paths else paths ++ [p]

/-- The sources: entry by entry, each file where it is found first. -/
def run (s : SourceScan) (t : FileTree) (cwd : Place) : Except Failure (List Path) := do
  let excluded ← excludePatterns s.excludes
  s.includes.foldlM (fun paths entry => do
    let candidates := (← s.found t cwd entry).filter (s.keeps excluded)
    .ok (candidates.foldl addNew paths)) []

end SourceScan

end DeclarationDocs

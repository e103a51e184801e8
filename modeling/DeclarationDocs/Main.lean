import DeclarationDocs.CommandLine

/-!
# The program

The arguments come from the command line.  The files come from standard input, as one JSON object
of texts by path: a path that is absolute as it is, any other below the working directory.  What
a run prints goes to standard output, and the files it wrote follow as one such object.

The program has no network of its own, so a run goes as far as it goes without a service.
-/

namespace DeclarationDocs

/-- The place of the working directory. -/
def workingPlace : Place := [['w', 'o', 'r', 'k']]

/-- The variables that a run looks at. -/
def variableNames : List String :=
  ["HOME", "XDG_CONFIG_HOME", "OPENAI_API_KEY", "WEAVEDOC_LLM_PROVIDER", "WEAVEDOC_LLM_MODEL",
   "WEAVEDOC_LLM_API_BASE", "WEAVEDOC_LLM_API_KEY", "WEAVEDOC_LLM_TIMEOUT_SECS",
   "WEAVEDOC_LLM_MAX_NEW_TOKENS", "WEAVEDOC_TEMPLATES_DIR", "WEAVEDOC_OUTPUT_DIR"]

/-- The place of a path. -/
def placeOf (p : Path) : Place :=
  if p.isAbsolute then p.names else workingPlace ++ p.names

/-- The files of a JSON object. -/
def treeOfJson (v : Json) : FileTree :=
  let start := FileTree.empty.add workingPlace .directory
  match v with
  | .object ms =>
    ms.foldl (fun t m =>
      match m.2 with
      | .string s => t.add (placeOf (.ofString m.1)) (.file (.text s))
      | _ => t.add (placeOf (.ofString m.1)) .directory) start
  | _ => start

/-- The files that are new or have another content, as a JSON object. -/
def changesJson (old new : FileTree) : Json :=
  .object ((new.filesBelow []).filterMap fun x =>
    let place := x.1.names
    if old.entry? place == new.entry? place then none
    else
      let shown := if workingPlace.isPrefixOf place then
          Path.mk (Path.joinSegments (place.drop workingPlace.length))
        else FileTree.pathOf place
      some (shown.text, .string x.2.lossy))

/-- The stage that a text of files sets. -/
def stageOf (environment : Variables) (executable : Path) (files : String) : Stage :=
  { surroundings := { cwd := workingPlace, environment, executable }
    tree := match Json.parse files.toList with
      | .ok v => treeOfJson v
      | .error _ => treeOfJson (.object [])
    exchange := .none }

/-- The rest of a stream. -/
partial def readAll (input : IO.FS.Stream) (before : String) : IO String := do
  let line ← input.getLine
  if line.isEmpty then return before else readAll input (before ++ line)

end DeclarationDocs

open DeclarationDocs

/-- Run the program on the files that standard input holds. -/
def main (args : List String) : IO UInt32 := do
  let files ← readAll (← IO.getStdin) ""
  let environment ← variableNames.filterMapM fun n => return (← IO.getEnv n).map fun v => (n, v)
  let executable ← IO.appPath
  let stage := stageOf environment (.ofString executable.toString) files
  let report := CommandLine.execute args stage
  IO.print report.output
  match report.failure with
  | some e => IO.eprintln ("Error: " ++ e.message)
  | none => IO.println (changesJson stage.tree report.tree).text
  return UInt32.ofNat report.code

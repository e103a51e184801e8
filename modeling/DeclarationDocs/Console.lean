import DeclarationDocs.Documenter
import DeclarationDocs.Text.Padding

/-!
# Lines on the console

What a run prints: one line when a job starts and one when it ends, or the list of planned jobs.
-/

namespace DeclarationDocs.Console

/-- The column of categories. -/
def categoryColumn (c : Category) : String := Text.Column.fill { width := 12 } c.name

/-- The line for an event. -/
def eventLine : Event → String
  | .started i job =>
    "[" ++ toString (i + 1) ++ "] " ++ categoryColumn job.category ++ " " ++ job.declarationName
      ++ "  " ++ job.sourcePath.text
  | .completed _ _ p => "✓ wrote " ++ p.text
  | .skipped _ job reason => "⚠ skipped " ++ job.declarationName ++ ": " ++ reason.message

/-- The line for a planned job. -/
def entryLine (j : PlanEntry) : String :=
  categoryColumn j.job.category ++ " " ++ j.job.declarationName ++ "  →  "
    ++ j.job.outputPath.text ++ (if j.hasTemplate then "" else "  (no template)")

/-- The lines for a plan. -/
def planLines (plan : List PlanEntry) : List String :=
  if plan.isEmpty then ["ℹ No documentable declarations found"]
  else "" :: (toString plan.length ++ " jobs") :: plan.map entryLine

/-- Lines as text. -/
def render (lines : List String) : String := String.join (lines.map (· ++ "\n"))

end DeclarationDocs.Console

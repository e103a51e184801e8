/-!
# Columns

Columns of a fixed width, counted in characters.

* `Column.fill`: a text in a column.
-/

namespace DeclarationDocs.Text

/-- The side of a column at which a text stands. -/
inductive Side where
  | left
  | right
deriving DecidableEq, Repr

/-- A column: how wide it is at least, at which side its texts stand, and after how many characters
they are cut. -/
structure Column where
  width : Nat := 0
  side : Side := .left
  longest : Option Nat := none
deriving DecidableEq, Repr

/-- A text in a column, cut if it is too long and filled up with spaces if it is too short. -/
def Column.fill (column : Column) (s : String) : String :=
  let shown := column.longest.elim s fun n => String.ofList (s.toList.take n)
  let gap := String.ofList (List.replicate (column.width - shown.length) ' ')
  match column.side with
  | .left => shown ++ gap
  | .right => gap ++ shown

end DeclarationDocs.Text

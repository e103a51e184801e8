/-!
# TOML values
-/

namespace DeclarationDocs

/-- A TOML value.  What a date says does not matter here. -/
inductive Toml where
  | text (s : String)
  | integer (i : Int)
  | float (x : Float)
  | bool (b : Bool)
  | date
  | array (items : List Toml)
  | table (members : List (String × Toml))

end DeclarationDocs

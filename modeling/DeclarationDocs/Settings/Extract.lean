import DeclarationDocs.Settings.Setting
import DeclarationDocs.Shape

/-!
# Settings of a shape

Reading a merged setting by a shape.  Keys are looked at in their alphabetical order, so the
first fault in that order is the one that is told.
-/

namespace DeclarationDocs.Setting

/-- The fault of a value of another type. -/
def wrongType (keys : List String) (s : Shape) (v : Setting) : SettingFault :=
  ⟨false, v, s.wanted, keys⟩

/-- A number of the wanted size. -/
def naturalOf (bits : Nat) (keys : List String) (v : Setting) (i : Int) :
    Except SettingFault Datum :=
  if 0 ≤ i ∧ i < (Nat.pow 2 bits : Int) then .ok (.natural i.toNat)
  else .error ⟨true, v, (Shape.natural bits).wanted, keys⟩

/-- The fields of a record, the values that were found put in the order of the fields. -/
def complete (fields : List Shape.Field) (found : List (String × Datum)) : Datum :=
  .record (fields.map fun f => (found.lookup f.1).getD (f.2.2.getD .absent))

/-- What came of the fields that were found. -/
abbrev Results := List (String × Except SettingFault Datum)

/-- The results in alphabetical order of their keys, in which the first fault counts. -/
def alphabetical (rs : Results) : Results := rs.mergeSort fun a b => decide (a.1 ≤ b.1)

/-- The values of all results, or the first fault. -/
def values : Results → Except SettingFault (List (String × Datum))
  | [] => .ok []
  | (k, r) :: rs => do
    let d ← r
    .ok ((k, d) :: (← values rs))

mutual

/-- The datum of a setting; `keys` lead to it. -/
def extractAt (keys : List String) : Shape → Setting → Except SettingFault Datum
  | .optional _, .scalar _ .absent => .ok .absent
  | .optional s, v => (extractAt keys s v).map Datum.present
  | .text, .scalar _ (.text s) => .ok (.text s)
  | .path, .scalar _ (.text s) => .ok (.text s)
  | .natural bits, .scalar o (.signed i) => naturalOf bits keys (.scalar o (.signed i)) i
  | .natural bits, .scalar o (.unsigned n) => naturalOf bits keys (.scalar o (.unsigned n)) n
  | .list s, .list _ vs =>
    (vs.zipIdx.mapM fun x => extractAt (keys ++ [toString x.2]) s x.1).map Datum.list
  | .record _ fields, .table _ ms =>
    (values (alphabetical (extractMembers keys ms fields))).map (complete fields)
  | .record _ fields, .list _ vs =>
    (values (extractFields keys 0 vs fields)).map (complete fields)
  | s, v => .error (wrongType keys s v)

/-- What comes of the members of a table for the fields that are among them. -/
def extractMembers (keys : List String) (ms : List (String × Setting)) :
    List (String × Shape × Option Datum) → Results
  | [] => []
  | (k, s, _) :: fs =>
    match ms.lookup k with
    | none => extractMembers keys ms fs
    | some v => (k, extractAt (keys ++ [k]) s v) :: extractMembers keys ms fs

/-- What comes of the items of a list for the fields in order; what is behind the last field does
not matter. -/
def extractFields (keys : List String) (i : Nat) (vs : List Setting) :
    List (String × Shape × Option Datum) → Results
  | [] => []
  | (k, s, _) :: fs =>
    match vs with
    | [] => []
    | v :: vs => (k, extractAt (keys ++ [toString i]) s v) :: extractFields keys (i + 1) vs fs

end

/-- The datum of a setting of the given shape. -/
def extract (s : Shape) (v : Setting) : Except SettingFault Datum := extractAt [] s v

end DeclarationDocs.Setting

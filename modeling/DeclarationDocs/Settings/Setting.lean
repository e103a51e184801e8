import DeclarationDocs.FloatText
import DeclarationDocs.Path
import DeclarationDocs.Text.Quoted

/-!
# Settings as they are written

A value from one of the layers of the configuration.  Every part of it knows the layer it comes
from, so that a fault can name its source after the layers have been merged.

* `Setting.merge`: one value over another; tables are merged key by key;
* `SettingFault.message`: the wording of a value that does not fit.
-/

namespace DeclarationDocs

/-- A layer of the configuration. -/
inductive Origin where
  | builtIn
  /-- A file, by the path that messages show. -/
  | file (shown : Path)
  | environment
deriving DecidableEq, Repr

/-- A value without parts. -/
inductive Scalar where
  | absent
  | bool (b : Bool)
  | signed (i : Int)
  | unsigned (n : Nat)
  | float (x : Float)
  | text (s : String)

/-- A value from a layer. -/
inductive Setting where
  | scalar (o : Origin) (v : Scalar)
  | list (o : Origin) (items : List Setting)
  | table (o : Origin) (members : List (String × Setting))

namespace Setting

/-- The layer a value comes from. -/
def origin : Setting → Origin
  | scalar o _ => o
  | list o _ => o
  | table o _ => o

mutual

/-- The value `new` over the value `old`. -/
def merge (old : Setting) (new : Setting) : Setting :=
  match old, new with
  | table _ a, table o b => table o (mergeMembers a b)
  | _, new => new

/-- Members over members; a key that is new goes to the end. -/
def mergeMembers (old : List (String × Setting)) :
    List (String × Setting) → List (String × Setting)
  | [] => old
  | (k, v) :: r =>
    let merged :=
      match old.lookup k with
      | some w =>
        let both := merge w v
        old.map fun m => if m.1 == k then (k, both) else m
      | none => old ++ [(k, v)]
    mergeMembers merged r

end

/-- What a value is called in messages. -/
def description : Setting → String
  | scalar _ .absent => "unit"
  | scalar _ (.bool b) => "bool " ++ (if b then "true" else "false")
  | scalar _ (.signed i) => "signed int `" ++ toString i ++ "`"
  | scalar _ (.unsigned n) => "unsigned int `" ++ toString n ++ "`"
  | scalar _ (.float x) => "float `" ++ floatText (Decimal.positional · false) x ++ "`"
  | scalar _ (.text s) => "string " ++ Text.quote s
  | list .. => "sequence"
  | table .. => "map"

end Setting

/-! ### Faults -/

/-- A value that does not fit. -/
structure SettingFault where
  /-- Whether a value of this type could fit. -/
  typeFits : Bool
  found : Setting
  wanted : String
  keys : List String

/-- The keys of a value as its layer writes them. -/
def Origin.keyText (o : Origin) (keys : List String) : String :=
  match o with
  | environment => String.intercalate "." (keys.map String.toUpper)
  | _ => String.intercalate "." ("default" :: keys)

/-- A layer as messages name it. -/
def Origin.description : Origin → String
  | builtIn => "the defaults"
  | file shown => shown.text ++ " TOML file"
  | environment => "`WEAVEDOC_` environment variable(s)"

/-- The wording of a fault. -/
def SettingFault.message (f : SettingFault) : String :=
  let o := f.found.origin
  (if f.typeFits then "invalid value " else "invalid type: found ") ++ f.found.description
    ++ ", expected " ++ f.wanted
    ++ " for key " ++ Text.quote (o.keyText f.keys)
    ++ " in " ++ o.description

/-- A layer that could not be read at all. -/
inductive LayerFault where
  | notUtf8 (shown : Path)
  | malformed (shown : Path)
deriving DecidableEq, Repr

/-- The wording of faults in layers, the latest layer first; of a fault of syntax it ends with
the name of the format. -/
def LayerFault.messageOf : List LayerFault → String
  | [] => ""
  | notUtf8 shown :: r =>
    "stream did not contain valid UTF-8\n in " ++ shown.text ++ " TOML file"
      ++ (if r.isEmpty then "" else "\n" ++ messageOf r)
  | malformed _ :: _ => "TOML parse error"

end DeclarationDocs

import DeclarationDocs.Json.Reader
import DeclarationDocs.FloatText
import DeclarationDocs.Text.Quoted

/-!
# Shapes

A `Shape` says what a setting, a project file or a reply has to look like; a `Datum` is what was
found there.  The same shape reads JSON text (`Shape.read`, which stops at the first fault and
tells its place) and JSON values (`Shape.decode`, where there are no places).

A record may be written as an object, whose unknown members do not matter, or as an array of its
fields in order.
-/

namespace DeclarationDocs

/-- What a value of some shape turned out to be. -/
inductive Datum where
  | text (s : String)
  | natural (n : Nat)
  | absent
  | present (d : Datum)
  | list (items : List Datum)
  | record (fields : List Datum)

/-- What a value has to look like. -/
inductive Shape where
  | text
  | path
  | natural (bits : Nat)
  | optional (s : Shape)
  | list (s : Shape)
  | record (name : String) (fields : List (String × Shape × Option Datum))

namespace Shape

/-- A field of a record: its name, its shape, and the value it has when it is not written. -/
abbrev Field := String × Shape × Option Datum

/-- What was found where something else was wanted. -/
inductive Found where
  | null
  | bool (b : Bool)
  | integer (i : Int)
  | float (x : Float)
  | string (s : String)
  | sequence
  | map

/-- How a value can fail to have a shape. -/
inductive Mismatch where
  | type (found : Found) (wanted : String)
  | value (found : Found) (wanted : String)
  | length (n : Nat) (wanted : String)
  | missingField (name : String)
  | duplicateField (name : String)

/-- The wording of what was found. -/
def Found.message : Found → String
  | null => "null"
  | bool b => "boolean `" ++ (if b then "true" else "false") ++ "`"
  | integer i => "integer `" ++ toString i ++ "`"
  | float x => "floating point `" ++ floatText Decimal.scientific x ++ "`"
  | string s => "string " ++ Text.quote s
  | sequence => "sequence"
  | map => "map"

/-- The wording of a mismatch. -/
def Mismatch.message : Mismatch → String
  | type f w => "invalid type: " ++ f.message ++ ", expected " ++ w
  | value f w => "invalid value: " ++ f.message ++ ", expected " ++ w
  | length n w => "invalid length " ++ toString n ++ ", expected " ++ w
  | missingField n => "missing field `" ++ n ++ "`"
  | duplicateField n => "duplicate field `" ++ n ++ "`"

/-- The wording of what is wanted. -/
def wanted : Shape → String
  | text => "a string"
  | path => "path string"
  | natural bits => "u" ++ toString bits
  | optional s => s.wanted
  | list _ => "a sequence"
  | record name _ => "struct " ++ name

/-- The wording of a record that is wanted as an array. -/
def wantedFields (name : String) (fields : List Field) : String :=
  "struct " ++ name ++ " with " ++ toString fields.length ++ " element"
    ++ (if fields.length = 1 then "" else "s")

/-- The value of a field that an object does not mention. -/
def Field.whenMissing (f : Field) : Except Mismatch Datum :=
  match f.2.2, f.2.1 with
  | some d, _ => .ok d
  | none, optional _ => .ok .absent
  | none, _ => .error (.missingField f.1)

/-- The fields of a record, in order, from the members that were found. -/
def gather (found : List (String × Datum)) : List Field → Except Mismatch (List Datum)
  | [] => .ok []
  | f :: fs => do
    let d ← match found.lookup f.1 with
      | some d => Except.ok d
      | none => f.whenMissing
    let ds ← gather found fs
    .ok (d :: ds)

/-- The fields that an array of `read` items leaves out. -/
def defaults (name : String) (fields : List Field) (read : Nat) : Except Mismatch (List Datum) :=
  (fields.drop read).zipIdx.mapM fun (f, i) =>
    match f.2.2 with
    | some d => .ok d
    | none => .error (.length (read + i) (wantedFields name fields))

/-- A number as a natural number of the given size. -/
def naturalOf (bits : Nat) : JsonNumber → Except Mismatch Datum
  | .int i =>
    if 0 ≤ i ∧ i < (Nat.pow 2 bits : Int) then .ok (.natural i.toNat)
    else .error (.value (.integer i) ("u" ++ toString bits))
  | .float x => .error (.type (.float x) ("u" ++ toString bits))

/-! ### Reading text -/

/-- What is wrong with a text that should have a shape. -/
inductive Fault where
  | broken (flaw : Json.Flaw)
  | mismatch (m : Mismatch)

/-- The wording of a fault, without its place. -/
def Fault.message : Fault → String
  | broken f => f.message
  | mismatch m => m.message

/-- A fault and where it was found. -/
structure FaultAt where
  fault : Fault
  position : Json.Position

/-- The wording of a fault with its place. -/
def FaultAt.message (f : FaultAt) : String := f.fault.message ++ f.position.suffix

/-- A result of the JSON reader. -/
def lift {α : Type} : Except Json.SyntaxFault α → Except FaultAt α
  | .ok x => .ok x
  | .error e => .error ⟨.broken e.flaw, e.position⟩

/-- A mismatch at a cursor. -/
def mismatchAt (c : Json.Cursor) (m : Mismatch) : FaultAt := ⟨.mismatch m, c.position⟩

/-- What stands at a cursor where another shape is wanted, and where it ends; a bracket is not
stepped over. -/
def foundAt (x : Char) (c : Json.Cursor) : Except FaultAt (Found × Json.Cursor) :=
  if x = '[' then .ok (.sequence, c)
  else if x = '\x7b' then .ok (.map, c)
  else do
    let (v, c) ← lift (Json.scalar x c)
    match v with
    | .null => .ok (.null, c)
    | .bool b => .ok (.bool b, c)
    | .number (.int i) => .ok (.integer i, c)
    | .number (.float f) => .ok (.float f, c)
    | .string s => .ok (.string s, c)
    | .array _ => .ok (.sequence, c)
    | .object _ => .ok (.map, c)

/-- The fault of a value of another shape. -/
def wrongType {α : Type} (x : Char) (wanted : String) (c : Json.Cursor) : Except FaultAt α := do
  let (found, c) ← foundAt x c
  .error (mismatchAt c (.type found wanted))

/-- Where a mismatch inside an array is reported: past what can be read of its end. -/
def afterList (c : Json.Cursor) : Json.Cursor :=
  let c := Json.skipBlanks c
  match c.rest with
  | ']' :: _ => c.next
  | ',' :: _ => Json.skipBlanks c.next
  | _ => c

/-- Where a mismatch inside an object is reported: past what can be read of its end. -/
def afterObject (c : Json.Cursor) : Json.Cursor :=
  let c := Json.skipBlanks c
  match c.rest with
  | '\x7d' :: _ => c.next
  | _ => c

/-- The closing bracket of an array whose fields have all been read. -/
def closeList (c : Json.Cursor) : Except FaultAt Json.Cursor := do
  let (x, c) ← lift (Json.peek .eofList c)
  if x = ']' then .ok c.next
  else if x = ',' then
    let c := Json.skipBlanks c.next
    match c.rest with
    | ']' :: _ => lift (.error (c.faultAfter .trailingComma))
    | _ => lift (.error (c.faultAfter .trailingCharacters))
  else lift (.error (c.faultAfter .trailingCharacters))

mutual

/-- Read a value of the given shape; `depth` more levels of nesting are allowed. -/
def readAt : Nat → Nat → Shape → Json.Cursor → Except FaultAt (Datum × Json.Cursor)
  | 0, _, _, c => lift (.error (c.fault .eofValue))
  | fuel + 1, depth, shape, c => do
    let (x, c) ← lift (Json.peek .eofValue c)
    match shape with
    | optional s =>
      if x = 'n' then
        let (_, c) ← lift (Json.scalar x c)
        .ok (.absent, c)
      else
        let (d, c) ← readAt fuel depth s c
        .ok (.present d, c)
    | text =>
      if x = '"' then
        let (s, c) ← lift (Json.stringAt c.next)
        .ok (.text s, c)
      else wrongType x shape.wanted c
    | path =>
      if x = '"' then
        let (s, c) ← lift (Json.stringAt c.next)
        .ok (.text s, c)
      else wrongType x shape.wanted c
    | natural bits =>
      if x = '-' ∨ Text.isDigit x then
        let (n, c) ← lift (if x = '-' then Json.numberAt false c.next else Json.numberAt true c)
        match naturalOf bits n with
        | .ok d => .ok (d, c)
        | .error m => .error (mismatchAt c m)
      else wrongType x shape.wanted c
    | list s =>
      if x = '[' then
        if depth ≤ 1 then lift (.error (c.faultAfter .recursionLimit))
        else
          let (ds, c) ← readItems fuel (depth - 1) s true c.next
          .ok (.list ds, c)
      else wrongType x shape.wanted c
    | record name fields =>
      if depth ≤ 1 ∧ (x = '[' ∨ x = '\x7b') then lift (.error (c.faultAfter .recursionLimit))
      else if x = '[' then
        let (ds, c) ← readFields fuel (depth - 1) true fields c.next
        match defaults name fields ds.length with
        | .error m => .error (mismatchAt (afterList c) m)
        | .ok more =>
          let c ← closeList c
          .ok (.record (ds ++ more), c)
      else if x = '\x7b' then
        let (found, c) ← readMembers fuel (depth - 1) true fields [] c.next
        match gather found fields with
        | .error m => .error (mismatchAt (afterObject c) m)
        | .ok ds => .ok (.record ds, c.next)
      else wrongType x shape.wanted c

/-- Read the items of an array with its closing bracket. -/
def readItems : Nat → Nat → Shape → Bool → Json.Cursor → Except FaultAt (List Datum × Json.Cursor)
  | 0, _, _, _, c => lift (.error (c.fault .eofList))
  | fuel + 1, depth, s, first, c => do
    let (more, c) ← lift (Json.hasItem first c)
    if more then
      let (d, c) ← readAt fuel depth s c
      let (ds, c) ← readItems fuel depth s false c
      .ok (d :: ds, c)
    else .ok ([], c.next)

/-- Read the fields of a record that is written as an array, as far as they go. -/
def readFields :
    Nat → Nat → Bool → List Field → Json.Cursor → Except FaultAt (List Datum × Json.Cursor)
  | 0, _, _, _, c => lift (.error (c.fault .eofList))
  | _ + 1, _, _, [], c => .ok ([], c)
  | fuel + 1, depth, first, f :: fs, c => do
    let (more, c) ← lift (Json.hasItem first c)
    if more then
      let (d, c) ← readAt fuel depth f.2.1 c
      let (ds, c) ← readFields fuel depth false fs c
      .ok (d :: ds, c)
    else .ok ([], c)

/-- Read the members of a record up to its closing brace. -/
def readMembers : Nat → Nat → Bool → List Field → List (String × Datum) → Json.Cursor →
    Except FaultAt (List (String × Datum) × Json.Cursor)
  | 0, _, _, _, _, c => lift (.error (c.fault .eofObject))
  | fuel + 1, depth, first, fields, found, c => do
    let (more, c) ← lift (Json.hasMember first c)
    if more then
      let (key, c) ← lift (Json.stringAt c.next)
      match fields.find? (·.1 == key) with
      | none =>
        let c ← lift (Json.colon c)
        let c ← lift (Json.skipValue (Json.fuelFor c) c)
        readMembers fuel depth false fields found c
      | some f =>
        if (found.lookup key).isSome then .error (mismatchAt (afterObject c) (.duplicateField key))
        else
          let c ← lift (Json.colon c)
          let (d, c) ← readAt fuel depth f.2.1 c
          readMembers fuel depth false fields ((key, d) :: found) c
    else .ok (found, c)

end

/-- Read a whole text of the given shape. -/
def read (shape : Shape) (s : List Char) : Except FaultAt Datum := do
  let c := Json.Cursor.start s
  let (d, c) ← readAt (Json.fuelFor c) Json.depthLimit shape c
  lift (Json.finish c)
  .ok d

/-! ### Decoding values -/

/-- What a value is called where another shape is wanted. -/
def foundOf : Json → Found
  | .null => .null
  | .bool b => .bool b
  | .number (.int i) => .integer i
  | .number (.float x) => .float x
  | .string s => .string s
  | .array _ => .sequence
  | .object _ => .map

mutual

/-- The datum of a value; `fuel` bounds the nesting of the shape. -/
def decodeAt : Nat → Shape → Json → Except Mismatch Datum
  | 0, s, v => .error (.type (foundOf v) s.wanted)
  | fuel + 1, shape, v =>
    match shape, v with
    | optional _, .null => .ok .absent
    | optional s, v => do .ok (.present (← decodeAt fuel s v))
    | text, .string s => .ok (.text s)
    | path, .string s => .ok (.text s)
    | natural bits, .number n => naturalOf bits n
    | list s, .array vs => do .ok (.list (← decodeItems fuel s vs))
    | record name fields, .array vs => do
      let ds ← decodeFields fuel fields vs
      let more ← defaults name fields ds.length
      if fields.length < vs.length then .error (.length vs.length "fewer elements in array")
      else .ok (.record (ds ++ more))
    | record _ fields, .object ms => do
      let found ← decodeMembers fuel fields [] ms
      .ok (.record (← gather found fields))
    | s, v => .error (.type (foundOf v) s.wanted)

/-- The data of the items of an array. -/
def decodeItems : Nat → Shape → List Json → Except Mismatch (List Datum)
  | 0, s, _ => .error (.type .sequence s.wanted)
  | _ + 1, _, [] => .ok []
  | fuel + 1, s, v :: vs => do
    let d ← decodeAt fuel s v
    let ds ← decodeItems fuel s vs
    .ok (d :: ds)

/-- The data of a record that is written as an array, as far as it goes. -/
def decodeFields : Nat → List Field → List Json → Except Mismatch (List Datum)
  | 0, _, _ => .error (.type .sequence "struct")
  | _ + 1, [], _ => .ok []
  | _ + 1, _, [] => .ok []
  | fuel + 1, f :: fs, v :: vs => do
    let d ← decodeAt fuel f.2.1 v
    let ds ← decodeFields fuel fs vs
    .ok (d :: ds)

/-- The data of the known members of a record. -/
def decodeMembers : Nat → List Field → List (String × Datum) → List (String × Json) →
    Except Mismatch (List (String × Datum))
  | 0, _, _, _ => .error (.type .map "struct")
  | _ + 1, _, found, [] => .ok found
  | fuel + 1, fields, found, (k, v) :: ms =>
    match fields.find? (·.1 == k) with
    | none => decodeMembers fuel fields found ms
    | some f =>
      if (found.lookup k).isSome then .error (.duplicateField k)
      else do
        let d ← decodeAt fuel f.2.1 v
        decodeMembers fuel fields ((k, d) :: found) ms

end

/-- The datum of a value of the given shape. -/
def decode (shape : Shape) (v : Json) : Except Mismatch Datum :=
  decodeAt (2 * v.size + 8) shape v

end Shape

/-! ### Using what was found -/

namespace Datum

/-- The text of a datum. -/
def asText : Datum → String
  | text s => s
  | _ => ""

/-- The number of a datum. -/
def asNatural : Datum → Nat
  | natural n => n
  | _ => 0

/-- The datum inside an optional one. -/
def asOption : Datum → Option Datum
  | present d => some d
  | _ => none

/-- The text of an optional datum. -/
def asTextOption (d : Datum) : Option String := d.asOption.map asText

/-- The items of a datum. -/
def asList : Datum → List Datum
  | list ds => ds
  | _ => []

/-- The field of a record with the given index. -/
def field (i : Nat) : Datum → Datum
  | record ds => ds[i]?.getD absent
  | _ => absent

end Datum

end DeclarationDocs

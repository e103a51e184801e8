/-!
# JSON values

Values keep the members of an object in written order, repeated keys included, so that a reader
can be compared with what was written.

Faults say what is wrong with a text and where.
-/

namespace DeclarationDocs

/-- A JSON number: an integer that fits 64 bits, or a binary floating point number. -/
inductive JsonNumber where
  | int (i : Int)
  | float (x : Float)

/-- A JSON value. -/
inductive Json where
  | null
  | bool (b : Bool)
  | number (n : JsonNumber)
  | string (s : String)
  | array (items : List Json)
  | object (members : List (String × Json))

namespace Json

/-- What can be wrong with the syntax of a JSON text. -/
inductive Flaw where
  | eofValue
  | eofList
  | eofObject
  | eofString
  | expectedColon
  | expectedListCommaOrEnd
  | expectedObjectCommaOrEnd
  | expectedIdent
  | expectedValue
  | invalidEscape
  | invalidNumber
  | numberOutOfRange
  | loneSurrogate
  | unexpectedEndOfHexEscape
  | controlCharacter
  | keyMustBeString
  | trailingComma
  | trailingCharacters
  | recursionLimit
deriving DecidableEq, Repr

/-- The wording of a flaw. -/
def Flaw.message : Flaw → String
  | eofValue => "EOF while parsing a value"
  | eofList => "EOF while parsing a list"
  | eofObject => "EOF while parsing an object"
  | eofString => "EOF while parsing a string"
  | expectedColon => "expected `:`"
  | expectedListCommaOrEnd => "expected `,` or `]`"
  | expectedObjectCommaOrEnd => "expected `,` or `\x7d`"
  | expectedIdent => "expected ident"
  | expectedValue => "expected value"
  | invalidEscape => "invalid escape"
  | invalidNumber => "invalid number"
  | numberOutOfRange => "number out of range"
  | loneSurrogate => "lone leading surrogate in hex escape"
  | unexpectedEndOfHexEscape => "unexpected end of hex escape"
  | controlCharacter => "control character (\\u0000-\\u001F) found while parsing a string"
  | keyMustBeString => "key must be a string"
  | trailingComma => "trailing comma"
  | trailingCharacters => "trailing characters"
  | recursionLimit => "recursion limit exceeded"

/-- A place in a text: lines count from 1, columns count the bytes since the line began. -/
structure Position where
  line : Nat
  column : Nat
deriving DecidableEq, Repr

/-- The suffix that tells a place. -/
def Position.suffix (p : Position) : String :=
  " at line " ++ toString p.line ++ " column " ++ toString p.column

mutual

/-- The number of values in a value, itself included. -/
def size : Json → Nat
  | .array vs => 1 + itemsSize vs
  | .object ms => 1 + membersSize ms
  | _ => 1

/-- The number of values in the items of an array. -/
def itemsSize : List Json → Nat
  | [] => 0
  | v :: vs => size v + itemsSize vs

/-- The number of values in the members of an object. -/
def membersSize : List (String × Json) → Nat
  | [] => 0
  | (_, v) :: ms => size v + membersSize ms

end

/-- The member with the given key, the last one if it is repeated. -/
def get? (v : Json) (key : String) : Option Json :=
  match v with
  | .object ms => ms.reverse.lookup key
  | _ => none

end Json

end DeclarationDocs

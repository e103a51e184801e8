import DeclarationDocs.Json.Basic
import DeclarationDocs.FloatText
import DeclarationDocs.Text.Digits

/-!
# Writing JSON

The compact form: no blanks, members in the order they have, and of all characters only quotes,
backslashes and controls are escaped.

* `Json.quoted`: text between quotes;
* `Json.print`: a value.
-/

namespace DeclarationDocs.Json

/-- A character as it stands between quotes. -/
def escaped (c : Char) : List Char :=
  match c with
  | '"' => ['\\', '"']
  | '\\' => ['\\', '\\']
  | '\x08' => ['\\', 'b']
  | '\x0c' => ['\\', 'f']
  | '\n' => ['\\', 'n']
  | '\r' => ['\\', 'r']
  | '\t' => ['\\', 't']
  | c =>
    if c.toNat < 0x20 then
      ['\\', 'u', '0', '0', Nat.digitChar (c.toNat / 16), Nat.digitChar (c.toNat % 16)]
    else [c]

/-- Text between quotes. -/
def quoted (s : List Char) : List Char := '"' :: s.flatMap escaped ++ ['"']

/-- A number. -/
def numberText : JsonNumber → List Char
  | .int i => (toString i).toList
  | .float x => (floatText Decimal.scientific x).toList

mutual

/-- A value in compact form. -/
def print : Json → List Char
  | .null => ['n', 'u', 'l', 'l']
  | .bool true => ['t', 'r', 'u', 'e']
  | .bool false => ['f', 'a', 'l', 's', 'e']
  | .number n => numberText n
  | .string s => quoted s.toList
  | .array items => '[' :: printItems items ++ [']']
  | .object members => '\x7b' :: printMembers members ++ ['\x7d']

/-- The items of an array with commas between them. -/
def printItems : List Json → List Char
  | [] => []
  | [v] => print v
  | v :: vs => print v ++ ',' :: printItems vs

/-- The members of an object with commas between them. -/
def printMembers : List (String × Json) → List Char
  | [] => []
  | [(k, v)] => quoted k.toList ++ ':' :: print v
  | (k, v) :: ms => quoted k.toList ++ ':' :: print v ++ ',' :: printMembers ms

end

/-- A value as text. -/
def text (v : Json) : String := String.ofList (print v)

/-- A natural number as a value. -/
def ofNat (n : Nat) : Json := .number (.int n)

/-- An optional text as a value. -/
def ofOption : Option String → Json
  | some s => .string s
  | none => .null

end DeclarationDocs.Json

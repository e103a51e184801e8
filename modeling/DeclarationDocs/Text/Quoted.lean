import DeclarationDocs.Text.Digits
import DeclarationDocs.Text.Unprintable

/-!
# Quoted text

Text between double quotes, as it is shown in messages and settings: quotes and backslashes are
escaped, and so is every character that would not be seen.
-/

namespace DeclarationDocs.Text

/-- A character as it stands between quotes. -/
def quoteChar : Char → List Char
  | '\x00' => ['\\', '0']
  | '\t' => ['\\', 't']
  | '\r' => ['\\', 'r']
  | '\n' => ['\\', 'n']
  | '"' => ['\\', '"']
  | '\\' => ['\\', '\\']
  | c =>
    if isUnprintable c then ['\\', 'u', '\x7b'] ++ hex c.toNat ++ ['\x7d'] else [c]

/-- Text between quotes. -/
def quote (s : String) : String :=
  String.ofList ('"' :: s.toList.flatMap quoteChar ++ ['"'])

/-- An optional text as a setting shows it. -/
def quoteOption : Option String → String
  | some s => "Some(" ++ quote s ++ ")"
  | none => "None"

end DeclarationDocs.Text

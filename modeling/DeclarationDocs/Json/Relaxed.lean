import DeclarationDocs.Json.Reader
import DeclarationDocs.Text.WhiteSpace

/-!
# Relaxed JSON

Project files may hold `//` and `/* */` comments, and a comma after the last item of an array or
object.  Such a text is made strict in two passes, each of which leaves string literals alone:

* `stripComments` removes the comments but keeps their line breaks, so that a place in the strict
  text is on the same line as in the written one;
* `dropTrailingCommas` removes every comma before a closing bracket.
-/

namespace DeclarationDocs.Json.Relaxed

/-- Where a character of a text stands. -/
inductive Region where
  | code
  | string
  | lineComment
  | blockComment
deriving DecidableEq, Repr

/-- The text without the comments, from a place in the given region on. -/
def stripFrom : Region → List Char → List Char
  | _, [] => []
  | .code, '"' :: r => '"' :: stripFrom .string r
  | .code, '/' :: '/' :: r => stripFrom .lineComment r
  | .code, '/' :: '*' :: r => stripFrom .blockComment r
  | .code, c :: r => c :: stripFrom .code r
  | .string, '\\' :: c :: r => '\\' :: c :: stripFrom .string r
  | .string, '"' :: r => '"' :: stripFrom .code r
  | .string, c :: r => c :: stripFrom .string r
  | .lineComment, '\n' :: r => '\n' :: stripFrom .code r
  | .lineComment, _ :: r => stripFrom .lineComment r
  | .blockComment, '*' :: '/' :: r => stripFrom .code r
  | .blockComment, '\n' :: r => '\n' :: stripFrom .blockComment r
  | .blockComment, _ :: r => stripFrom .blockComment r

/-- Whether the next character that is no white space closes an array or object. -/
def closesNext (s : List Char) : Bool :=
  match s.dropWhile Text.isWhiteSpace with
  | ']' :: _ => true
  | '\x7d' :: _ => true
  | _ => false

/-- The text without the trailing commas, from a place inside or outside a string on. -/
def dropCommasFrom : (inString : Bool) → List Char → List Char
  | _, [] => []
  | true, '\\' :: c :: r => '\\' :: c :: dropCommasFrom true r
  | true, '"' :: r => '"' :: dropCommasFrom false r
  | true, c :: r => c :: dropCommasFrom true r
  | false, '"' :: r => '"' :: dropCommasFrom true r
  | false, ',' :: r => if closesNext r then dropCommasFrom false r else ',' :: dropCommasFrom false r
  | false, c :: r => c :: dropCommasFrom false r

/-- Remove the comments of a text. -/
def stripComments (s : List Char) : List Char := stripFrom .code s

/-- Remove the commas before closing brackets. -/
def dropTrailingCommas (s : List Char) : List Char := dropCommasFrom false s

/-- The strict text that a relaxed one stands for. -/
def strict (s : List Char) : List Char := dropTrailingCommas (stripComments s)

/-- The value of a relaxed text. -/
def parse (s : List Char) : Except SyntaxFault Json := Json.parse (strict s)

end DeclarationDocs.Json.Relaxed

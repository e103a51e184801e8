import DeclarationDocs.Settings.Setting
import DeclarationDocs.Text.Number
import DeclarationDocs.Text.Search
import DeclarationDocs.Text.WhiteSpace
import DeclarationDocs.Toml.Scalar

/-!
# Settings in environment variables

A variable whose name starts with the prefix, in whatever case, sets a value; the rest of the
name is its key, whose first underscore stands for a dot.  The value is a word, a number, a
quoted text, a list in brackets or a table in braces; what is none of these is plain text.

* `Setting.ofVariableText`: reading a value;
* `Setting.ofVariables`: the settings of an environment.
-/

namespace DeclarationDocs

/-- The variables of an environment. -/
abbrev Variables := List (String × String)

namespace Setting

/-- The beginning of the names that matter. -/
def variablePrefix : String := "WEAVEDOC_"

/-! ### Values -/

/-- A plain value from the environment. -/
def plain (v : Scalar) : Setting := .scalar .environment v

/-- A number without a sign of its own, or behind a plus sign. -/
def unsigned? (s : List Char) : Option Nat :=
  let r := match s with
    | '+' :: r => r
    | s => s
  if r.isEmpty ∨ !r.all Text.isDigit then none
  else
    let n := Text.valueOfDigits r
    if n < Nat.pow 2 64 then some n else none

/-- A number with a sign. -/
def signed? (s : List Char) : Option Int :=
  let (negative, r) := Text.leadingSign s
  if r.isEmpty ∨ !r.all Text.isDigit then none
  else
    let i : Int := if negative then -(Text.valueOfDigits r : Int) else Text.valueOfDigits r
    if Toml.fits i then some i else none

/-- A number with a point. -/
def float? (s : List Char) : Option Float :=
  if s.contains '.' then (Text.numeral? s).map Text.Numeral.toFloat else none

/-- A number, or plain text. -/
def bare (s : List Char) : Setting :=
  match unsigned? s with
  | some n => plain (.unsigned n)
  | none =>
    match signed? s with
    | some i => plain (.signed i)
    | none =>
      match float? s with
      | some x => plain (.float x)
      | none => plain (.text (String.ofList s))

/-- Whether a character ends a value without quotes. -/
def isSeparator (c : Char) : Bool := ",\x7b\x7d[]".toList.contains c

/-- Step over blanks and line ends. -/
def skipBlanks (s : List Char) : List Char :=
  s.dropWhile fun c => c == ' ' || c == '\t' || c == '\n' || c == '\x0c' || c == '\r'

/-- The rest of a text in double quotes, as written. -/
def quotedRest : List Char → Option (List Char × List Char)
  | [] => none
  | '"' :: r => some ([], r)
  | '\\' :: c :: r => (quotedRest r).map fun (xs, r) => ('\\' :: c :: xs, r)
  | c :: r => (quotedRest r).map fun (xs, r) => (c :: xs, r)

/-- The text that stands in double quotes. -/
def unescape : Nat → List Char → Option (List Char)
  | 0, _ => none
  | _, [] => some []
  | n + 1, '\\' :: r => do
    let (c, r) ← Toml.escapeHere r
    let xs ← unescape n r
    some (c :: xs)
  | n + 1, c :: r => if Toml.isPlain c then (unescape n r).map (c :: ·) else none

/-- A text in quotes of either kind; escapes count in double quotes only. -/
def quotedText (s : List Char) : Option (String × List Char) :=
  match s with
  | '"' :: r => do
    let (body, r) ← quotedRest r
    let text ← unescape (body.length + 1) body
    some (String.ofList text, r)
  | '\'' :: r =>
    let body := r.takeWhile (· != '\'')
    if body.length < r.length then some (String.ofList body, r.drop (body.length + 1)) else none
  | _ => none

/-- The key of a pair in braces. -/
def pairKey (s : List Char) : Option (String × List Char) :=
  match s with
  | '"' :: _ => quotedText s
  | s =>
    let k := s.takeWhile Toml.isBare
    if k.isEmpty then none else some (String.ofList k, s.drop k.length)

mutual

/-- A value and the rest behind it; the first argument bounds the steps. -/
def valueAt : Nat → List Char → Option (Setting × List Char)
  | 0, _ => none
  | n + 1, s => do
    let (v, r) ← match skipBlanks s with
      | 't' :: 'r' :: 'u' :: 'e' :: r => some (plain (.bool true), r)
      | 'f' :: 'a' :: 'l' :: 's' :: 'e' :: r => some (plain (.bool false), r)
      | '[' :: r => do
        let (vs, r) ← itemsAt n r
        some (Setting.list .environment vs, r)
      | '\x7b' :: r => do
        let (ms, r) ← pairsAt n r
        some (Setting.table .environment ms, r)
      | '"' :: r => (quotedText ('"' :: r)).map fun (t, r) => (plain (.text t), r)
      | '\'' :: r => (quotedText ('\'' :: r)).map fun (t, r) => (plain (.text t), r)
      | s =>
        let w := s.takeWhile fun c => !isSeparator c
        some (bare (Text.trimChars w), s.drop w.length)
    some (v, skipBlanks r)

/-- The items of a list up to its end. -/
def itemsAt : Nat → List Char → Option (List Setting × List Char)
  | 0, _ => none
  | _, ']' :: r => some ([], r)
  | n + 1, s => do
    let (v, r) ← valueAt n s
    match r with
    | ',' :: r =>
      let (vs, r) ← itemsAt n r
      some (v :: vs, r)
    | ']' :: r => some ([v], r)
    | _ => none

/-- The pairs of a table up to its end; of pairs with one key the last one counts. -/
def pairsAt : Nat → List Char → Option (List (String × Setting) × List Char)
  | 0, _ => none
  | _, '\x7d' :: r => some ([], r)
  | n + 1, s => do
    let (k, r) ← pairKey (skipBlanks s)
    match skipBlanks r with
    | '=' :: r =>
      let (v, r) ← valueAt n r
      match r with
      | ',' :: r =>
        let (ms, r) ← pairsAt n r
        some (if (ms.lookup k).isSome then ms else (k, v) :: ms, r)
      | '\x7d' :: r => some ([(k, v)], r)
      | _ => none
    | _ => none

end

/-- The value of a variable. -/
def ofVariableText (s : String) : Setting :=
  let trimmed := Text.trimChars s.toList
  match valueAt (2 * trimmed.length + 2) trimmed with
  | some (v, []) => v
  | _ => plain (.text (String.ofList trimmed))

/-! ### Names -/

/-- The key that a variable sets: the part of its name behind the prefix, in small letters, with
a dot for the first underscore, cut at its dots; none if a part is empty. -/
def keysOf? (name : String) : Option (List String) :=
  let start := Text.lowerAscii variablePrefix.toList
  let lower := Text.lowerAscii (Text.trimChars name.toList)
  if start.isPrefixOf lower then
    let rest := lower.drop start.length
    let head := rest.takeWhile (· != '_')
    let dotted := if head.length < rest.length then head ++ '.' :: rest.drop (head.length + 1) else rest
    let parts := Text.splitAt '.' (Text.trimChars dotted)
    if parts.any List.isEmpty then none else some (parts.map String.ofList)
  else none

/-- A value below keys. -/
def nest (keys : List String) (v : Setting) : Setting :=
  keys.foldr (fun k v => .table .environment [(k, v)]) v

/-- The settings of an environment; a later variable goes over an earlier one. -/
def ofVariables (vs : Variables) : Setting :=
  vs.foldl (fun s x =>
    match keysOf? x.1 with
    | some keys => merge s (nest keys (ofVariableText x.2))
    | none => s) (.table .environment [])

end Setting

end DeclarationDocs

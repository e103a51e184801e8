import DeclarationDocs.Text.WhiteSpace

/-!
# Lexemes

The smallest parts of a source text: trivia (blanks and comments), names, literals.  A reader
takes the text still to be read and answers what is left behind the lexeme; it never looks at
what came before.

* `skipTrivia`: the next lexeme;
* `name?`: names, which may be written with escapes;
* `stringEnd`, `regexEnd`, `numberEnd`, `templateChunk`: literals;
* `symbol`, `keyword`: a given mark or word behind trivia.
-/

namespace DeclarationDocs.TypeScript

/-- A reader answers what is left of a text, or nothing if the text does not fit. -/
abbrev Reader := List Char → Option (List Char)

/-! ### Trivia -/

/-- Blanks between lexemes, line breaks included. -/
def isBlank (c : Char) : Bool :=
  Text.isWhiteSpace c || c == '\u200b' || c == '\u2060' || c == '\ufeff'

/-- The characters that end a line comment. -/
def endsLine (c : Char) : Bool :=
  c == '\n' || c == '\r' || c == '\u2028' || c == '\u2029'

/-- What a stretch of trivia is made of. -/
inductive TriviaPart where
  | blank
  | line
  /-- A block comment that began at the given text. -/
  | block (start : List Char)

/-- Step over trivia; `crossed` tells whether a line was ended on the way.  A block comment
without an end is no trivia. -/
def triviaFrom : TriviaPart → Bool → List Char → Bool × List Char
  | .block start, crossed, [] => (crossed, start)
  | _, crossed, [] => (crossed, [])
  | .blank, crossed, '/' :: '/' :: r => triviaFrom .line crossed r
  | .blank, crossed, '/' :: '*' :: r => triviaFrom (.block ('/' :: '*' :: r)) crossed r
  | .blank, crossed, c :: r =>
    if isBlank c then triviaFrom .blank (crossed || endsLine c) r else (crossed, c :: r)
  | .line, crossed, c :: r =>
    if endsLine c then triviaFrom .blank true r else triviaFrom .line crossed r
  | .block _, crossed, '*' :: '/' :: r => triviaFrom .blank crossed r
  | .block start, crossed, c :: r => triviaFrom (.block start) (crossed || endsLine c) r

/-- The text from the next lexeme on. -/
def skipTrivia (s : List Char) : List Char := (triviaFrom .blank false s).2

/-- Whether a line ends before the next lexeme. -/
def lineEndsBefore (s : List Char) : Bool := (triviaFrom .blank false s).1

/-- What follows the comment at the head of a text. -/
def commentEnd : Reader
  | '/' :: '/' :: r => some (r.dropWhile fun c => !endsLine c)
  | '/' :: '*' :: r => closing r
  | _ => none
where
  closing : Reader
    | [] => none
    | '*' :: '/' :: r => some r
    | _ :: r => closing r

/-! ### Names -/

/-- The marks of the language, none of which is part of a name. -/
def isMark (c : Char) : Bool :=
  ":;`\"'@#.,|^&<=>+-*/\\%?!~()[]\x7b\x7d".toList.contains c

/-- Whether a character may stand in a name. -/
def isNamePart (c : Char) : Bool :=
  0x20 ≤ c.toNat && !isBlank c && !isMark c

/-- Whether a character may start a name. -/
def isNameStart (c : Char) : Bool :=
  isNamePart c && !('0' ≤ c && c ≤ '9')

/-- Whether a character is a hexadecimal digit. -/
def isHex (c : Char) : Bool :=
  ('0' ≤ c && c ≤ '9') || ('a' ≤ c && c ≤ 'f') || ('A' ≤ c && c ≤ 'F')

/-- The length of the escaped character at the head of a text; zero if there is none. -/
def escapeLength : List Char → Nat
  | '\\' :: 'u' :: '\x7b' :: r =>
    let digits := r.takeWhile isHex
    match digits, r.drop digits.length with
    | _ :: _, '\x7d' :: _ => digits.length + 4
    | _, _ => 0
  | '\\' :: 'u' :: a :: b :: c :: d :: _ => if [a, b, c, d].all isHex then 6 else 0
  | _ => 0

/-- The rest of a name and what follows it; the next `escaped` characters belong to an escaped
character. -/
def nameTail : (escaped : Nat) → List Char → List Char × List Char
  | _, [] => ([], [])
  | k + 1, c :: r => let (n, t) := nameTail k r; (c :: n, t)
  | 0, c :: r =>
    if isNamePart c then let (n, t) := nameTail 0 r; (c :: n, t)
    else match escapeLength (c :: r) with
      | 0 => ([], c :: r)
      | k + 1 => let (n, t) := nameTail k r; (c :: n, t)

/-- The name at the head of a text and what follows it. -/
def nameHere? : List Char → Option (List Char × List Char)
  | [] => none
  | c :: r =>
    if isNameStart c || escapeLength (c :: r) != 0 then some (nameTail 0 (c :: r)) else none

/-- The next name and what follows it. -/
def name? (s : List Char) : Option (List Char × List Char) := nameHere? (skipTrivia s)

/-- Step over a name. -/
def anyName : Reader := fun s => (name? s).map Prod.snd

/-! ### Literals -/

/-- Step over a string to and with its closing quote. -/
def stringEnd (quote : Char) : Reader
  | [] => none
  | '\\' :: _ :: r => stringEnd quote r
  | c :: r => if c = quote then some r else if c = '\n' then none else stringEnd quote r

/-- Step over a string in an element's attribute, where nothing is escaped. -/
def attributeEnd (quote : Char) : Reader
  | [] => none
  | c :: r => if c = quote then some r else attributeEnd quote r

/-- Step over a regular expression and its flags, behind its first slash. -/
def regexEnd : (inClass : Bool) → Reader
  | _, [] => none
  | _, '\n' :: _ => none
  | b, '\\' :: c :: r => if c = '\n' then none else regexEnd b r
  | false, '[' :: r => regexEnd true r
  | true, ']' :: r => regexEnd false r
  | false, '/' :: r => some (nameTail 0 r).2
  | b, _ :: r => regexEnd b r

/-- Whether a character may stand among the digits of a number. -/
def isDigitPart (c : Char) : Bool := ('0' ≤ c && c ≤ '9') || c == '_'

/-- Step over the exponent and the suffix of a number. -/
def numberTail (s : List Char) : List Char :=
  let s := match s with
    | e :: r =>
      if e == 'e' || e == 'E' then
        match r with
        | '+' :: t => t.dropWhile isDigitPart
        | '-' :: t => t.dropWhile isDigitPart
        | t => t.dropWhile isDigitPart
      else s
    | [] => s
  match s with
  | 'n' :: r => r
  | _ => s

/-- Step over a number. -/
def numberEnd : Reader
  | '0' :: x :: r =>
    if "xXoObB".toList.contains x then some (r.dropWhile isNamePart)
    else some (numberTail (fraction ((x :: r).dropWhile isDigitPart)))
  | '.' :: d :: r =>
    if '0' ≤ d ∧ d ≤ '9' then some (numberTail (r.dropWhile isDigitPart)) else none
  | d :: r =>
    if '0' ≤ d ∧ d ≤ '9' then some (numberTail (fraction (r.dropWhile isDigitPart))) else none
  | [] => none
where
  fraction : List Char → List Char
    | '.' :: r => r.dropWhile isDigitPart
    | s => s

/-- Step over the characters of a template; the first part tells whether a hole was opened. -/
def templateChunk : List Char → Option (Bool × List Char)
  | [] => none
  | '\\' :: _ :: r => templateChunk r
  | '`' :: r => some (false, r)
  | '$' :: '\x7b' :: r => some (true, r)
  | _ :: r => templateChunk r

/-! ### Marks and words -/

/-- Remove `t` from the head of a text. -/
def strip : List Char → Reader
  | [], s => some s
  | _ :: _, [] => none
  | a :: t, b :: s => if a = b then strip t s else none

/-- Step over trivia and the mark `t`. -/
def symbol (t : List Char) : Reader := fun s => strip t (skipTrivia s)

/-- Step over trivia and the word `w`. -/
def keyword (w : String) : Reader := fun s =>
  match name? s with
  | some (n, r) => if n = w.toList then some r else none
  | none => none

/-- Step over one of several words. -/
def oneOf (ws : List String) : Reader := fun s =>
  match name? s with
  | some (n, r) => if ws.any fun w => w.toList = n then some r else none
  | none => none

/-- The next lexeme starts with `c`. -/
def startsWith (c : Char) (s : List Char) : Bool :=
  match skipTrivia s with
  | x :: _ => x == c
  | [] => false

/-! ### Combining readers -/

/-- Step over `p`, or over `q` if that is not possible. -/
def either (p q : Reader) : Reader := fun s =>
  match p s with
  | some r => some r
  | none => q s

/-- Step over `p` if it is there. -/
def maybe (p : Reader) : Reader := fun s => some ((p s).getD s)

/-- Step over `p` as often as it is there, `n` times at most. -/
def many : Nat → Reader → Reader
  | 0, _, s => some s
  | n + 1, p, s =>
    match p s with
    | some r => many n p r
    | none => some s

/-- Step over nothing, provided that `p` holds of what follows. -/
def provided (p : List Char → Bool) : Reader := fun s => if p s then some s else none

/-- Step over `p` on the same line. -/
def sameLine (p : Reader) : Reader := fun s => if lineEndsBefore s then none else p s

/-! ### Ends of statements -/

/-- The blanks that are passed over in search of the end of a line. -/
def isAsciiBlank (c : Char) : Bool := c == ' ' || (9 ≤ c.toNat && c.toNat ≤ 13)

/-- Whether the line break before `s`, whose comments and blanks are passed over, ends a
statement.  Marks that continue what comes before do not; `(` and `[` continue an expression. -/
def breakEnds (inExpression : Bool) (s : List Char) : Bool :=
  match skipTrivia s with
  | [] => true
  | '+' :: r => r.head? == some '+'
  | '-' :: r => r.head? == some '-'
  | '!' :: r => r.head? != some '='
  | c :: r =>
    if "`,.;*%><=?^|&/:".toList.contains c then false
    else if c == '(' || c == '[' then !inExpression
    else match nameHere? (c :: r) with
      | some (n, _) => n != "in".toList && n != "instanceof".toList
      | none => true

/-- Whether a statement may end here without a semicolon: at the end of the text, before a
closing brace, or at a line break that `breakEnds`. -/
def endsHere (inExpression : Bool) : List Char → Bool
  | [] => true
  | '\x7d' :: r =>
    match r.dropWhile isAsciiBlank with
    | ':' :: _ => false
    | _ => true
  | '\n' :: r => breakEnds inExpression r
  | c :: r => if isAsciiBlank c then endsHere inExpression r else false

/-- Step over the semicolon of a statement, or to the place where it may be left out.  Comments
on the way belong to the statement. -/
def semicolon (inExpression : Bool) : Nat → List Char → List Char
  | 0, s => s
  | n + 1, s =>
    if endsHere inExpression s then s
    else
      let t := s.dropWhile isBlank
      match t with
      | ';' :: r => r
      | t =>
        match commentEnd t with
        | some r => semicolon inExpression n r
        | none => s

/-- Step over the comments before a line break that ends a statement; if there is none, stay. -/
def commentsToBreak : Nat → List Char → Option (List Char)
  | 0, _ => none
  | n + 1, s =>
    if endsHere false s then some s
    else (commentEnd (s.dropWhile isBlank)).bind (commentsToBreak n)

end DeclarationDocs.TypeScript

import DeclarationDocs.Text.Number
import DeclarationDocs.Text.Search
import DeclarationDocs.Toml.Basic

/-!
# The words of TOML

Keys, strings, numbers and dates.  Every reader takes the text it stands at and gives what it
read with the rest, or nothing if the text is wrong.

* `Toml.keyPath`: a dotted key;
* `Toml.stringHere`: a string of any of the four kinds;
* `Toml.plainHere`: a number, a date or a word.
-/

namespace DeclarationDocs.Toml

/-- A reader of something at the head of a text. -/
abbrev Reader (α : Type) := List Char → Option (α × List Char)

/-! ### Blanks -/

/-- Spaces and tabs. -/
def isBlank (c : Char) : Bool := c == ' ' || c == '\t'

/-- Skip blanks. -/
def skipBlanks (s : List Char) : List Char := s.dropWhile isBlank

/-- Whether a character may stand in a comment or a literal string. -/
def isPlain (c : Char) : Bool := c == '\t' || (0x20 ≤ c.toNat && c.toNat != 0x7F)

/-- A line end. -/
def newline : Reader Unit
  | '\n' :: r => some ((), r)
  | '\r' :: '\n' :: r => some ((), r)
  | _ => none

/-- Skip the rest of a line: blanks, a comment, and the line end. -/
def endLine (s : List Char) : Option (List Char) :=
  let r := skipBlanks s
  let r := if r.head? = some '#' then r.dropWhile isPlain else r
  match r with
  | [] => some []
  | r => (newline r).map Prod.snd

/-- Skip blanks, line ends and comments. -/
def skipSpace : Nat → List Char → Option (List Char)
  | 0, _ => none
  | n + 1, s =>
    let r := skipBlanks s
    match r with
    | '#' :: _ => do skipSpace n (← endLine r)
    | '\n' :: r => skipSpace n r
    | '\r' :: '\n' :: r => skipSpace n r
    | r => some r

/-! ### Strings -/

/-- The character that an escape stands for, with the rest; the text is behind the backslash. -/
def escapeHere (s : List Char) : Option (Char × List Char) :=
  let coded := fun (k : Nat) (r : List Char) => do
    let digits := r.take k
    let n ← if digits.length = k then Text.numberIn? 16 digits else none
    if n.isValidChar then some (Char.ofNat n, r.drop k) else none
  match s with
  | 'b' :: r => some ('\x08', r)
  | 't' :: r => some ('\t', r)
  | 'n' :: r => some ('\n', r)
  | 'f' :: r => some ('\x0c', r)
  | 'r' :: r => some ('\r', r)
  | '"' :: r => some ('"', r)
  | '\\' :: r => some ('\\', r)
  | 'u' :: r => coded 4 r
  | 'U' :: r => coded 8 r
  | _ => none

/-- The rest of a string on one line; `quote` ends it. -/
def lineString (quote : Char) : Nat → Reader (List Char)
  | 0, _ => none
  | _, [] => none
  | n + 1, c :: r =>
    if c = quote then some ([], r)
    else if c = '\\' ∧ quote = '"' then do
      let (x, r) ← escapeHere r
      let (xs, r) ← lineString quote n r
      some (x :: xs, r)
    else if isPlain c then do
      let (xs, r) ← lineString quote n r
      some (c :: xs, r)
    else none

/-- What follows a backslash at the end of a line: the line end and all space behind it. -/
def skipLineFold (s : List Char) : Option (List Char) := do
  let (_, r) ← newline (skipBlanks s)
  some (r.dropWhile fun c => isBlank c || c == '\n' || c == '\r')

/-- Whether every carriage return of a text stands before a line feed. -/
def returnsPaired : List Char → Bool
  | '\r' :: '\n' :: r => returnsPaired r
  | '\r' :: _ => false
  | _ :: r => returnsPaired r
  | [] => true

/-- The rest of a string on many lines; three times `quote` ends it, and one or two more belong
to the string. -/
def blockString (quote : Char) : Nat → Reader (List Char)
  | 0, _ => none
  | _, [] => none
  | n + 1, c :: r =>
    if c = quote then
      let run := ((c :: r).takeWhile (· = quote)).length
      if 3 ≤ run then
        if run ≤ 5 then some (List.replicate (run - 3) quote, (c :: r).drop run)
        else some (List.replicate 2 quote, (c :: r).drop 5)
      else do
        let (xs, r) ← blockString quote n r
        some (c :: xs, r)
    else if c = '\\' ∧ quote = '"' then
      match skipLineFold r with
      | some rest =>
        if returnsPaired (r.take (r.length - rest.length)) then blockString quote n rest else none
      | none => do
        let (x, r) ← escapeHere r
        let (xs, r) ← blockString quote n r
        some (x :: xs, r)
    else if isPlain c then do
      let (xs, r) ← blockString quote n r
      some (c :: xs, r)
    else do
      let (_, r) ← newline (c :: r)
      let (xs, r) ← blockString quote n r
      some ('\n' :: xs, r)

/-- A string that starts with the given quote. -/
def quotedHere (quote : Char) (s : List Char) : Option (String × List Char) := do
  let read ← match s with
    | a :: b :: c :: r =>
      if a = quote ∧ b = quote ∧ c = quote then
        let body := match newline r with
          | some (_, r) => r
          | none => r
        blockString quote (r.length + 1) body
      else if a = quote then lineString quote (s.length + 1) (b :: c :: r)
      else none
    | a :: r => if a = quote then lineString quote (s.length + 1) r else none
    | [] => none
  some (String.ofList read.1, read.2)

/-- A string. -/
def stringHere (s : List Char) : Option (String × List Char) :=
  match s.head? with
  | some '"' => quotedHere '"' s
  | some '\'' => quotedHere '\'' s
  | _ => none

/-! ### Keys -/

/-- Whether a character may stand in a bare key. -/
def isBare (c : Char) : Bool := c.isAlphanum || c == '_' || c == '-'

/-- One key. -/
def simpleKey (s : List Char) : Option (String × List Char) :=
  match s with
  | '"' :: r => do
    let (k, r) ← lineString '"' (r.length + 1) r
    some (String.ofList k, r)
  | '\'' :: r => do
    let (k, r) ← lineString '\'' (r.length + 1) r
    some (String.ofList k, r)
  | s =>
    let k := s.takeWhile isBare
    if k.isEmpty then none else some (String.ofList k, s.drop k.length)

/-- The most keys with dots between them. -/
def keyLimit : Nat := 79

/-- Keys with dots and blanks between them, and the rest behind the blanks. -/
def keyPath : Nat → Reader (List String)
  | 0, _ => none
  | n + 1, s => do
    let (k, r) ← simpleKey (skipBlanks s)
    match skipBlanks r with
    | '.' :: r =>
      let (ks, r) ← keyPath n r
      some (k :: ks, r)
    | r => some ([k], r)

/-! ### Numbers -/

/-- Digits with single underscores between them, without the underscores. -/
def digitRun (isDigit : Char → Bool) (s : List Char) : Option (List Char) :=
  let parts := Text.splitAt '_' s
  if parts.all fun p => !p.isEmpty && p.all isDigit then some parts.flatten else none

/-- Whether an integer fits. -/
def fits (i : Int) : Bool := -(Nat.pow 2 63 : Int) ≤ i && i < (Nat.pow 2 63 : Int)

/-- An integer with a base. -/
def basedInteger (base : Nat) (s : List Char) : Option Toml := do
  let digits ← digitRun (fun c => (Text.hexDigit? c).any (· < base)) s
  let n ← Text.numberIn? base digits
  if fits n then some (.integer n) else none

/-- Digits that do not start with a zero, unless the zero is all. -/
def wholeDigits (s : List Char) : Option (List Char) := do
  let digits ← digitRun Text.isDigit s
  if digits.head? = some '0' ∧ digits.length ≠ 1 then none else some digits

/-- A decimal integer. -/
def decimalInteger (negative : Bool) (s : List Char) : Option Toml := do
  let digits ← wholeDigits s
  let n : Int := Text.valueOfDigits digits
  let i := if negative then -n else n
  if fits i then some (.integer i) else none

/-- The part of a number before and behind its first `c`. -/
def cutAt (c : Char → Bool) (s : List Char) : List Char × Option (List Char) :=
  let head := s.takeWhile fun x => !c x
  (head, match s.drop head.length with
    | _ :: r => some r
    | [] => none)

/-- A number with a point or an exponent. -/
def decimalFloat (negative : Bool) (s : List Char) : Option Toml := do
  let (mantissa, exponent) := cutAt (fun c => c == 'e' || c == 'E') s
  let (whole, fraction) := cutAt (· == '.') mantissa
  if exponent.isNone ∧ fraction.isNone then none
  else
    let whole ← wholeDigits whole
    let fraction ← match fraction with
      | some f => digitRun Text.isDigit f
      | none => some []
    let exponent ← match exponent with
      | some e =>
        let (down, digits) := Text.leadingSign e
        let n ← digitRun Text.isDigit digits
        some (if down then -(Text.valueOfDigits n : Int) else Text.valueOfDigits n)
      | none => some 0
    let x := (Text.Numeral.mk negative (whole ++ fraction) (exponent - fraction.length)).toFloat
    if x.isInf ∧ !negative then none else some (.float x)

/-- A word or a number that is not a date. -/
def numberOrWord (s : List Char) : Option Toml :=
  if s = "true".toList then some (.bool true)
  else if s = "false".toList then some (.bool false)
  else
    let (negative, r) := Text.leadingSign s
    let signed : Bool := r.length < s.length
    if r = "inf".toList then some (.float (if negative then -(1.0 / 0.0) else 1.0 / 0.0))
    else if r = "nan".toList then some (.float (0.0 / 0.0))
    else
      match signed, r with
      | false, '0' :: 'x' :: ds => basedInteger 16 ds
      | false, '0' :: 'o' :: ds => basedInteger 8 ds
      | false, '0' :: 'b' :: ds => basedInteger 2 ds
      | _, r =>
        match decimalInteger negative r with
        | some v => some v
        | none => decimalFloat negative r

/-! ### Dates -/

/-- Two digits at the head of a text, up to a limit. -/
def pairUpTo (low high : Nat) (s : List Char) : Option (Nat × List Char) :=
  match s with
  | a :: b :: r =>
    if Text.isDigit a ∧ Text.isDigit b then
      let n := Text.valueOfDigits [a, b]
      if low ≤ n ∧ n ≤ high then some (n, r) else none
    else none
  | _ => none

/-- One given character. -/
def expect (c : Char) : List Char → Option (List Char)
  | x :: r => if x = c then some r else none
  | [] => none

/-- The days of a month. -/
def daysOf (year month : Nat) : Nat :=
  let leap := year % 4 = 0 ∧ (year % 100 ≠ 0 ∨ year % 400 = 0)
  if month = 2 then (if leap then 29 else 28)
  else if month = 4 ∨ month = 6 ∨ month = 9 ∨ month = 11 then 30 else 31

/-- A date. -/
def fullDate (s : List Char) : Option (List Char) := do
  let year := s.take 4
  if year.length = 4 ∧ year.all Text.isDigit then
    let r ← expect '-' (s.drop 4)
    let (month, r) ← pairUpTo 1 12 r
    let r ← expect '-' r
    let (_, r) ← pairUpTo 1 (daysOf (Text.valueOfDigits year) month) r
    some r
  else none

/-- A time of day. -/
def partialTime (s : List Char) : Option (List Char) := do
  let (_, r) ← pairUpTo 0 23 s
  let r ← expect ':' r
  let (_, r) ← pairUpTo 0 59 r
  let r ← expect ':' r
  let (_, r) ← pairUpTo 0 60 r
  match r with
  | '.' :: d :: r =>
    if Text.isDigit d then some (r.dropWhile Text.isDigit) else some ('.' :: d :: r)
  | r => some r

/-- The offset of a time. -/
def timeOffset (s : List Char) : Option (List Char) := do
  match s with
  | 'Z' :: r => some r
  | 'z' :: r => some r
  | c :: r =>
    if c = '+' ∨ c = '-' then
      let (_, r) ← pairUpTo 0 23 r
      let r ← expect ':' r
      let (_, r) ← pairUpTo 0 59 r
      some r
    else none
  | [] => none

/-- The time behind a date, with its offset. -/
def timeBehind (s : List Char) : Option (List Char) := do
  match s with
  | c :: r =>
    if c = 'T' ∨ c = 't' ∨ c = ' ' then
      let r ← partialTime r
      some ((timeOffset r).getD r)
    else none
  | [] => none

/-- A date, a time, or both. -/
def dateHere (s : List Char) : Option (List Char) :=
  match fullDate s with
  | some r => some ((timeBehind r).getD r)
  | none => partialTime s

/-- Whether a character may stand in a number or a word. -/
def isWordPart (c : Char) : Bool := c.isAlphanum || c == '_' || c == '+' || c == '-' || c == '.'

/-- A number, a date or a word. -/
def plainHere : Reader Toml := fun s =>
  match dateHere s with
  | some r => some (.date, r)
  | none =>
    let w := s.takeWhile isWordPart
    (numberOrWord w).map fun v => (v, s.drop w.length)

end DeclarationDocs.Toml

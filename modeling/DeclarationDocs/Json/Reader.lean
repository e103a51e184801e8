import DeclarationDocs.Json.Basic
import DeclarationDocs.Text.Digits
import DeclarationDocs.Text.Utf8

/-!
# Reading JSON text

A strict reader.  It works on a `Cursor`, the text still to be read and the place reached, and
reports the first flaw together with its place.

* `Json.parse`: one complete value;
* `Json.value`: a value at a cursor, nested at most 127 deep;
* `Json.skipValue`: pass over a value that nobody asked for; only its shape is checked, so
  numbers of any size, unpaired surrogates and any depth are let through.
-/

namespace DeclarationDocs.Json

open Text (isDigit digitValue hexDigit? valueOfDigits)

/-! ### Cursors -/

/-- A text being read. -/
structure Cursor where
  rest : List Char
  line : Nat
  column : Nat

/-- A flaw and its place. -/
structure SyntaxFault where
  flaw : Flaw
  position : Position
deriving DecidableEq, Repr

/-- A reader of `α`: the value read and where it ends. -/
abbrev Reader (α : Type) := Cursor → Except SyntaxFault (α × Cursor)

namespace Cursor

/-- The start of a text. -/
def start (s : List Char) : Cursor := ⟨s, 1, 0⟩

/-- The place of a cursor. -/
def position (c : Cursor) : Position := ⟨c.line, c.column⟩

/-- Step over one character. -/
def next (c : Cursor) : Cursor :=
  match c.rest with
  | [] => c
  | '\n' :: r => ⟨r, c.line + 1, 0⟩
  | x :: r => ⟨r, c.line, c.column + x.utf8Size⟩

/-- Step over `n` characters. -/
def skip : Nat → Cursor → Cursor
  | 0, c => c
  | n + 1, c => skip n c.next

/-- The place behind the first byte of the next character. -/
def positionAfterByte (c : Cursor) : Position :=
  match c.rest with
  | [] => c.position
  | '\n' :: _ => ⟨c.line + 1, 0⟩
  | _ => ⟨c.line, c.column + 1⟩

/-- A fault at the cursor. -/
def fault (c : Cursor) (f : Flaw) : SyntaxFault := ⟨f, c.position⟩

/-- A fault at the next character, which is counted as read. -/
def faultAfter (c : Cursor) (f : Flaw) : SyntaxFault := ⟨f, c.positionAfterByte⟩

/-- The place behind the next `n` bytes. -/
def positionAfterBytes : Nat → Cursor → Position
  | 0, c => c.position
  | n + 1, c =>
    match c.rest with
    | [] => c.position
    | x :: _ =>
      if x.utf8Size ≤ n + 1 then positionAfterBytes (n + 1 - x.utf8Size) c.next
      else ⟨c.line, c.column + n + 1⟩
termination_by n => n
decreasing_by
  have := Char.utf8Size_pos x
  omega

end Cursor

/-- The four characters that may stand between tokens. -/
def isBlank (c : Char) : Bool :=
  c == ' ' || c == '\n' || c == '\t' || c == '\r'

/-- Step over `s` characters while they are blank. -/
def skipBlanksIn : List Char → Cursor → Cursor
  | [], c => c
  | x :: r, c => if isBlank x then skipBlanksIn r c.next else c

/-- Step over blanks. -/
def skipBlanks (c : Cursor) : Cursor := skipBlanksIn c.rest c

/-! ### Words -/

/-- The rest of a word whose first letter was read. -/
def word : List Char → Reader Unit
  | [], c => .ok ((), c)
  | x :: r, c =>
    match c.rest with
    | [] => .error (c.fault .eofValue)
    | y :: _ => if x = y then word r c.next else .error (c.faultAfter .expectedIdent)

/-! ### Strings -/

/-- Four hexadecimal digits. -/
def hexEscape (c : Cursor) : Except SyntaxFault (Nat × Cursor) :=
  match c.rest with
  | a :: b :: d :: e :: _ =>
    match hexDigit? a, hexDigit? b, hexDigit? d, hexDigit? e with
    | some x, some y, some z, some w => .ok (((x * 16 + y) * 16 + z) * 16 + w, c.skip 4)
    | _, _, _, _ => .error ⟨.invalidEscape, c.positionAfterBytes 4⟩
  | r =>
    if 4 ≤ Text.byteLength r then .error ⟨.invalidEscape, c.positionAfterBytes 4⟩
    else .error ((c.skip r.length).fault .eofString)

/-- Step over the character `x` of a surrogate pair. -/
def pairMark (x : Char) (c : Cursor) : Except SyntaxFault Cursor :=
  match c.rest with
  | [] => .error (c.fault .eofString)
  | y :: _ => if x = y then .ok c.next else .error (c.faultAfter .unexpectedEndOfHexEscape)

/-- The character of an escape `\u`, with its second half if it is a surrogate pair. -/
def unicodeEscape (c : Cursor) : Except SyntaxFault (Char × Cursor) := do
  let (n, c) ← hexEscape c
  if 0xDC00 ≤ n ∧ n ≤ 0xDFFF then .error (c.fault .loneSurrogate)
  else if 0xD800 ≤ n ∧ n ≤ 0xDBFF then
    let c ← pairMark '\\' c
    let c ← pairMark 'u' c
    let (m, c) ← hexEscape c
    if 0xDC00 ≤ m ∧ m ≤ 0xDFFF then
      .ok (Char.ofNat (0x10000 + (n - 0xD800) * 0x400 + (m - 0xDC00)), c)
    else .error (c.fault .loneSurrogate)
  else .ok (Char.ofNat n, c)

/-- The character that a one-letter escape stands for. -/
def simpleEscape? : Char → Option Char
  | '"' => some '"'
  | '\\' => some '\\'
  | '/' => some '/'
  | 'b' => some '\x08'
  | 'f' => some '\x0c'
  | 'n' => some '\n'
  | 'r' => some '\r'
  | 't' => some '\t'
  | _ => none

/-- The rest of a string whose opening quote was read; `acc` is what was read, backwards.  With
`checked` off, escapes need not stand for characters and nothing is collected. -/
def stringTail (checked : Bool) : Nat → List Char → Reader (List Char)
  | 0, _, c => .error (c.fault .eofString)
  | fuel + 1, acc, c =>
    match c.rest with
    | [] => .error (c.fault .eofString)
    | '"' :: _ => .ok (acc.reverse, c.next)
    | '\\' :: _ =>
      let c := c.next
      match c.rest with
      | [] => .error (c.fault .eofString)
      | 'u' :: _ =>
        if checked then do
          let (x, c) ← unicodeEscape c.next
          stringTail checked fuel (x :: acc) c
        else do
          let (_, c) ← hexEscape c.next
          stringTail checked fuel acc c
      | x :: _ =>
        match simpleEscape? x with
        | some y => stringTail checked fuel (y :: acc) c.next
        | none => .error (c.faultAfter .invalidEscape)
    | x :: _ =>
      if x.toNat < 0x20 then
        .error (if checked then c.faultAfter .controlCharacter else c.fault .controlCharacter)
      else stringTail checked fuel (x :: acc) c.next

/-- A string whose opening quote was read. -/
def stringAt (c : Cursor) : Except SyntaxFault (String × Cursor) := do
  let (s, c) ← stringTail true (c.rest.length + 1) [] c
  .ok (String.ofList s, c)

/-! ### Numbers -/

/-- One more than the largest significand that is kept. -/
def significandBound : Nat := Nat.pow 2 64

/-- The powers of ten below `10 ^ 309`. -/
def powerOfTen (k : Nat) : Float := Float.ofScientific 1 false k

/-- Scale `f` by a power of ten, in steps of at most `10 ^ 308`; none if it grows too large. -/
def scale : Nat → Float → Int → Option Float
  | 0, f, _ => some f
  | fuel + 1, f, e =>
    if e.natAbs ≤ 308 then
      if 0 ≤ e then
        let g := f * powerOfTen e.natAbs
        if g.isInf then none else some g
      else some (f / powerOfTen e.natAbs)
    else if f == 0.0 then some f
    else if 0 ≤ e then none
    else scale fuel (f / powerOfTen 308) (e + 308)

/-- The floating point number `± significand * 10 ^ exponent`. -/
def floatOf (positive : Bool) (significand : Nat) (exponent : Int) : Option Float :=
  (scale 16 (Float.ofNat significand) (max exponent (-4096))).map fun f =>
    if positive then f else -f

/-- Step over digits, adding to `n` those that do not make it too large; the second part counts
the digits used. -/
def digits (s : List Char) (n used : Nat) (c : Cursor) : Nat × Nat × Cursor :=
  match s with
  | [] => (n, used, c)
  | x :: r =>
    if isDigit x && n * 10 + digitValue x < significandBound then
      digits r (n * 10 + digitValue x) (used + 1) c.next
    else (n, used, c)

/-- Step over digits; the first part counts them. -/
def dropDigits (s : List Char) (count : Nat) (c : Cursor) : Nat × Cursor :=
  match s with
  | [] => (count, c)
  | x :: r => if isDigit x then dropDigits r (count + 1) c.next else (count, c)

/-- The exponent of a number, at its `e`. -/
def exponentPart (positive : Bool) (significand : Nat) (exponent : Int) : Reader JsonNumber :=
  fun c =>
  let c := c.next
  let (down, c) := match c.rest with
    | '+' :: _ => (false, c.next)
    | '-' :: _ => (true, c.next)
    | _ => (false, c)
  match c.rest with
  | [] => .error (c.fault .eofValue)
  | x :: _ =>
    if !isDigit x then .error (c.faultAfter .invalidNumber)
    else
      let (count, c') := dropDigits c.rest 0 c
      let written := c.rest.take count
      let e := valueOfDigits written
      if e ≤ 2147483647 then
        match floatOf positive significand (if down then exponent - e else exponent + e) with
        | some f => .ok (.float f, c')
        | none => .error (c'.fault .numberOutOfRange)
      else if significand ≠ 0 ∧ !down then
        let kept := (List.range count).find? fun k => valueOfDigits (written.take (k + 1)) > 2147483647
        .error ((c.skip (kept.getD 0 + 1)).fault .numberOutOfRange)
      else .ok (.float (if positive then 0.0 else -0.0), c')

/-- What follows the digits of the integral and fractional part. -/
def floatTail (positive : Bool) (significand : Nat) (exponent : Int) : Reader JsonNumber :=
  fun c =>
  match c.rest with
  | 'e' :: _ => exponentPart positive significand exponent c
  | 'E' :: _ => exponentPart positive significand exponent c
  | _ =>
    match floatOf positive significand exponent with
    | some f => .ok (.float f, c)
    | none => .error (c.fault .numberOutOfRange)

/-- The fraction of a number, at its point. -/
def fractionPart (positive : Bool) (significand : Nat) (exponent : Int) : Reader JsonNumber :=
  fun c =>
  let c := c.next
  match c.rest with
  | [] => .error (c.fault .eofValue)
  | x :: _ =>
    if !isDigit x then .error (c.faultAfter .invalidNumber)
    else
      let (n, used, c) := digits c.rest significand 0 c
      let (_, c) := dropDigits c.rest 0 c
      floatTail positive n (exponent - used) c

/-- What follows the digits of the integral part. -/
def numberTail (positive : Bool) (significand : Nat) : Reader JsonNumber :=
  fun c =>
  match c.rest with
  | '.' :: _ => fractionPart positive significand 0 c
  | 'e' :: _ => exponentPart positive significand 0 c
  | 'E' :: _ => exponentPart positive significand 0 c
  | _ =>
    if positive then .ok (.int significand, c)
    else if significand = 0 ∨ Nat.pow 2 63 < significand then .ok (.float (-(Float.ofNat significand)), c)
    else .ok (.int (-significand), c)

/-- A number, at its first digit. -/
def numberAt (positive : Bool) : Reader JsonNumber :=
  fun c =>
  match c.rest with
  | [] => .error (c.fault .eofValue)
  | '0' :: r =>
    let c := c.next
    match r with
    | x :: _ => if isDigit x then .error (c.faultAfter .invalidNumber) else numberTail positive 0 c
    | [] => numberTail positive 0 c
  | x :: _ =>
    if !isDigit x then .error (c.faultAfter .invalidNumber)
    else
      let (n, _, c) := digits c.rest 0 0 c
      let (more, c') := dropDigits c.rest 0 c
      if more = 0 then numberTail positive n c
      else match c'.rest with
        | '.' :: _ => fractionPart positive n more c'
        | _ => floatTail positive n more c'

/-! ### Values -/

/-- How deep values may be nested. -/
def depthLimit : Nat := 128

/-- Step over blanks to the next character, or fail at the end of the text. -/
def peek (atEnd : Flaw) (c : Cursor) : Except SyntaxFault (Char × Cursor) :=
  let c := skipBlanks c
  match c.rest with
  | [] => .error (c.fault atEnd)
  | x :: _ => .ok (x, c)

/-- A value that is no array and no object, at its first character. -/
def scalar (x : Char) : Reader Json :=
  fun c =>
  match x with
  | 'n' => do let (_, c) ← word "ull".toList c.next; .ok (.null, c)
  | 't' => do let (_, c) ← word "rue".toList c.next; .ok (.bool true, c)
  | 'f' => do let (_, c) ← word "alse".toList c.next; .ok (.bool false, c)
  | '-' => do let (n, c) ← numberAt false c.next; .ok (.number n, c)
  | '"' => do let (s, c) ← stringAt c.next; .ok (.string s, c)
  | x => if isDigit x then do let (n, c) ← numberAt true c; .ok (.number n, c)
    else .error (c.faultAfter .expectedValue)

/-- Whether another item of an array follows; its closing bracket is not read. -/
def hasItem (first : Bool) (c : Cursor) : Except SyntaxFault (Bool × Cursor) := do
  let (x, c) ← peek .eofList c
  if x = ']' then .ok (false, c)
  else if first then .ok (true, c)
  else if x = ',' then
    let (y, c) ← peek .eofValue c.next
    if y = ']' then .error (c.faultAfter .trailingComma) else .ok (true, c)
  else .error (c.faultAfter .expectedListCommaOrEnd)

/-- Whether another member of an object follows; its closing brace is not read. -/
def hasMember (first : Bool) (c : Cursor) : Except SyntaxFault (Bool × Cursor) := do
  let (x, c) ← peek .eofObject c
  if x = '\x7d' then .ok (false, c)
  else if first then
    if x = '"' then .ok (true, c) else .error (c.faultAfter .keyMustBeString)
  else if x = ',' then
    let (y, c) ← peek .eofValue c.next
    if y = '"' then .ok (true, c)
    else if y = '\x7d' then .error (c.faultAfter .trailingComma)
    else .error (c.faultAfter .keyMustBeString)
  else .error (c.faultAfter .expectedObjectCommaOrEnd)

/-- The colon between a key and its value. -/
def colon (c : Cursor) : Except SyntaxFault Cursor := do
  let (x, c) ← peek .eofObject c
  if x = ':' then .ok c.next else .error (c.faultAfter .expectedColon)

mutual

/-- A value; `depth` more levels of nesting are allowed. -/
def value : Nat → Nat → Reader Json
  | 0, _, c => .error (c.fault .eofValue)
  | fuel + 1, depth, c => do
    let (x, c) ← peek .eofValue c
    if x = '[' then
      if depth ≤ 1 then .error (c.faultAfter .recursionLimit)
      else do
        let (items, c) ← itemsOf fuel (depth - 1) true c.next
        .ok (.array items, c)
    else if x = '\x7b' then
      if depth ≤ 1 then .error (c.faultAfter .recursionLimit)
      else do
        let (members, c) ← membersOf fuel (depth - 1) true c.next
        .ok (.object members, c)
    else scalar x c

/-- The items of an array up to and with its closing bracket. -/
def itemsOf : Nat → Nat → Bool → Reader (List Json)
  | 0, _, _, c => .error (c.fault .eofList)
  | fuel + 1, depth, first, c => do
    let (more, c) ← hasItem first c
    if more then
      let (v, c) ← value fuel depth c
      let (vs, c) ← itemsOf fuel depth false c
      .ok (v :: vs, c)
    else .ok ([], c.next)

/-- The members of an object up to and with its closing brace. -/
def membersOf : Nat → Nat → Bool → Reader (List (String × Json))
  | 0, _, _, c => .error (c.fault .eofObject)
  | fuel + 1, depth, first, c => do
    let (more, c) ← hasMember first c
    if more then
      let (k, c) ← stringAt c.next
      let c ← colon c
      let (v, c) ← value fuel depth c
      let (ms, c) ← membersOf fuel depth false c
      .ok ((k, v) :: ms, c)
    else .ok ([], c.next)

end

/-- Enough fuel for every text that starts at the cursor. -/
def fuelFor (c : Cursor) : Nat := 2 * c.rest.length + 2

/-- Nothing but blanks is left. -/
def finish (c : Cursor) : Except SyntaxFault Unit :=
  let c := skipBlanks c
  match c.rest with
  | [] => .ok ()
  | _ => .error (c.faultAfter .trailingCharacters)

/-- A text that is one value. -/
def parse (s : List Char) : Except SyntaxFault Json := do
  let c := Cursor.start s
  let (v, c) ← value (fuelFor c) depthLimit c
  finish c
  .ok v

/-! ### Passing over values -/

/-- Step over one or more digits. -/
def someDigits (c : Cursor) : Except SyntaxFault Cursor :=
  match c.rest with
  | x :: _ => if isDigit x then .ok (dropDigits c.rest 0 c).2 else .error (c.faultAfter .invalidNumber)
  | [] => .error (c.fault .invalidNumber)

/-- Step over the exponent of a number, if there is one. -/
def skipExponent (c : Cursor) : Except SyntaxFault Cursor :=
  match c.rest with
  | x :: r =>
    if x = 'e' ∨ x = 'E' then
      match r with
      | '+' :: _ => someDigits c.next.next
      | '-' :: _ => someDigits c.next.next
      | _ => someDigits c.next
    else .ok c
  | [] => .ok c

/-- Step over a number, at its first digit. -/
def skipNumber (c : Cursor) : Except SyntaxFault Cursor := do
  let c ← match c.rest with
    | '0' :: x :: _ =>
      if isDigit x then Except.error (c.next.faultAfter .invalidNumber) else Except.ok c.next
    | _ => someDigits c
  let c ← match c.rest with
    | '.' :: _ => someDigits c.next
    | _ => Except.ok c
  skipExponent c

/-- Step over a string whose opening quote was read. -/
def skipString (c : Cursor) : Except SyntaxFault Cursor := do
  let (_, c) ← stringTail false (c.rest.length + 1) [] c
  .ok c

/-- Step over a value that is no array and no object. -/
def skipScalar (x : Char) (c : Cursor) : Except SyntaxFault Cursor :=
  match x with
  | '-' => skipNumber c.next
  | '"' => skipString c.next
  | x => if isDigit x then skipNumber c else do let (_, c) ← scalar x c; .ok c

mutual

/-- Step over a value. -/
def skipValue : Nat → Cursor → Except SyntaxFault Cursor
  | 0, c => .error (c.fault .eofValue)
  | fuel + 1, c => do
    let (x, c) ← peek .eofValue c
    if x = '[' then
      let (y, c) ← peek .eofList c.next
      if y = ']' then .ok c.next else skipItems fuel c
    else if x = '\x7b' then
      let (y, c) ← peek .eofObject c.next
      if y = '\x7d' then .ok c.next else skipMembers fuel c
    else skipScalar x c

/-- Step over the items of an array, at an item. -/
def skipItems : Nat → Cursor → Except SyntaxFault Cursor
  | 0, c => .error (c.fault .eofList)
  | fuel + 1, c => do
    let c ← skipValue fuel c
    let (x, c) ← peek .eofList c
    if x = ',' then skipItems fuel c.next
    else if x = ']' then .ok c.next
    else .error (c.faultAfter .expectedListCommaOrEnd)

/-- Step over the members of an object, at a member. -/
def skipMembers : Nat → Cursor → Except SyntaxFault Cursor
  | 0, c => .error (c.fault .eofObject)
  | fuel + 1, c => do
    let (x, c) ← peek .eofObject c
    if x ≠ '"' then .error (c.faultAfter .keyMustBeString)
    else
      let c ← skipString c.next
      let c ← colon c
      let c ← skipValue fuel c
      let (y, c) ← peek .eofObject c
      if y = ',' then skipMembers fuel c.next
      else if y = '\x7d' then .ok c.next
      else .error (c.faultAfter .expectedObjectCommaOrEnd)

end

end DeclarationDocs.Json

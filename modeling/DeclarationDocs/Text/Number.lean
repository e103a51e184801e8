import DeclarationDocs.Text.Digits

/-!
# Decimal numbers in text

The value of a number with a point and an exponent, correctly rounded.
-/

namespace DeclarationDocs.Text

/-- A decimal number: its digits without the point, and the power of ten they are scaled by. -/
structure Numeral where
  negative : Bool
  digits : List Char
  scale : Int
deriving DecidableEq, Repr

/-- The nearest binary floating point number; very small exponents give zero and very large ones
infinity. -/
def Numeral.toFloat (n : Numeral) : Float :=
  let m := valueOfDigits n.digits
  let length : Int := n.digits.length
  let magnitude :=
    if m = 0 ∨ n.scale + length < -400 then 0.0
    else if 400 < n.scale then 1.0 / 0.0
    else Float.ofScientific m (n.scale < 0) n.scale.natAbs
  if n.negative then -magnitude else magnitude

/-- The digits at the head of a text. -/
def leadingDigits (s : List Char) : List Char := s.takeWhile isDigit

/-- The sign at the head of a text and what is behind it. -/
def leadingSign : List Char → Bool × List Char
  | '-' :: r => (true, r)
  | '+' :: r => (false, r)
  | s => (false, s)

/-- The exponent behind an `e`: an optional sign and digits, and nothing else. -/
def exponentOf? (s : List Char) : Option Int :=
  let (negative, r) := leadingSign s
  if r.isEmpty ∨ !r.all isDigit then none
  else some (if negative then -(valueOfDigits r : Int) else valueOfDigits r)

/-- Read a decimal number: digits with a point somewhere or nowhere, and an optional exponent. -/
def numeral? (s : List Char) : Option Numeral := do
  let (negative, r) := leadingSign s
  let whole := leadingDigits r
  let r := r.drop whole.length
  let (fraction, r) :=
    match r with
    | '.' :: r => (leadingDigits r, r.drop (leadingDigits r).length)
    | r => ([], r)
  if whole.isEmpty ∧ fraction.isEmpty then none
  else
    let exponent ← match r with
      | [] => some 0
      | 'e' :: r => exponentOf? r
      | 'E' :: r => exponentOf? r
      | _ => none
    some ⟨negative, whole ++ fraction, exponent - fraction.length⟩

end DeclarationDocs.Text

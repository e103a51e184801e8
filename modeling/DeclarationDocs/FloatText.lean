/-!
# The shortest text of a floating point number

A finite number is written with the fewest decimal digits that read back to it; of the
candidates with that many digits the nearest one is taken.  `Decimal.ofFloat` finds the digits
in exact arithmetic, and two layouts write them: `positional` never uses an exponent,
`scientific` does so outside `10⁻⁵ ≤ x < 10¹⁶`.
-/

namespace DeclarationDocs

/-- The number `digits * 10 ^ exponent`. -/
structure Decimal where
  digits : Nat
  exponent : Int
deriving DecidableEq, Repr

namespace Decimal

/-- A positive number `mantissa * 2 ^ exponent` with the reals that round to it:
`narrowBelow` tells whether the gap below is half as large as the one above. -/
structure Binary where
  mantissa : Nat
  exponent : Int
  narrowBelow : Bool

/-- The binary form of the magnitude of a finite number. -/
def Binary.ofBits (bits : Nat) : Binary :=
  let fraction := bits % Nat.pow 2 52
  let e : Nat := bits / Nat.pow 2 52 % Nat.pow 2 11
  if e = 0 then ⟨fraction, -1074, false⟩
  else ⟨fraction + Nat.pow 2 52, (e : Int) - 1075, fraction == 0 && e > 1⟩

/-- A ratio of natural numbers. -/
structure Ratio where
  num : Nat
  den : Nat

/-- The ratio `n * 2 ^ e`. -/
def Ratio.scaled (n : Nat) (e : Int) : Ratio :=
  if 0 ≤ e then ⟨n * Nat.pow 2 e.natAbs, 1⟩ else ⟨n, Nat.pow 2 e.natAbs⟩

/-- The order of ratios. -/
def Ratio.le (a b : Ratio) : Bool := a.num * b.den ≤ b.num * a.den

/-- The strict order of ratios. -/
def Ratio.lt (a b : Ratio) : Bool := a.num * b.den < b.num * a.den

/-- The ratio `n * 10 ^ e`. -/
def Ratio.tens (n : Nat) (e : Int) : Ratio :=
  if 0 ≤ e then ⟨n * Nat.pow 10 e.natAbs, 1⟩ else ⟨n, Nat.pow 10 e.natAbs⟩

/-- Whether a decimal lies between the reals that round to `b`, ends included when the mantissa
is even. -/
def Binary.contains (b : Binary) (d : Ratio) : Bool :=
  let above := Ratio.scaled (2 * b.mantissa + 1) (b.exponent - 1)
  let below :=
    if b.narrowBelow then Ratio.scaled (4 * b.mantissa - 1) (b.exponent - 2)
    else Ratio.scaled (2 * b.mantissa - 1) (b.exponent - 1)
  if b.mantissa % 2 = 0 then below.le d && d.le above else below.lt d && d.lt above

/-- The exponent `k` with `10 ^ (k - 1) ≤ r < 10 ^ k`, searched upwards from `k`. -/
def magnitude (r : Ratio) : Nat → Int → Int
  | 0, k => k
  | fuel + 1, k => if r.lt (Ratio.tens 1 k) then k else magnitude r fuel (k + 1)

/-- The decimals with the exponent `e` next to `r`, the nearer one first. -/
def neighbours (r : Ratio) (e : Int) : List Decimal :=
  let scaled : Ratio := if 0 ≤ e then ⟨r.num, r.den * Nat.pow 10 e.natAbs⟩
    else ⟨r.num * Nat.pow 10 e.natAbs, r.den⟩
  let low := scaled.num / scaled.den
  let rest := scaled.num % scaled.den
  if 2 * rest < scaled.den ∨ (2 * rest = scaled.den ∧ low % 2 = 0) then [⟨low, e⟩, ⟨low + 1, e⟩]
  else [⟨low + 1, e⟩, ⟨low, e⟩]

/-- Try one digit more at a time. -/
def search (b : Binary) (r : Ratio) (k : Int) : Nat → Int → Decimal
  | 0, e => (neighbours r e).headD ⟨0, 0⟩
  | fuel + 1, e =>
    match (neighbours r e).find? fun d => b.contains (Ratio.tens d.digits d.exponent) with
    | some d => d
    | none => search b r k fuel (e - 1)

/-- Drop the zeros at the end of the digits. -/
def dropZeros : Nat → Decimal → Decimal
  | 0, d => d
  | fuel + 1, d =>
    if d.digits ≠ 0 ∧ d.digits % 10 = 0 then dropZeros fuel ⟨d.digits / 10, d.exponent + 1⟩ else d

/-- The shortest decimal that reads back to the magnitude of a finite number. -/
def ofFloat (x : Float) : Decimal :=
  let b := Binary.ofBits (x.toBits.toNat % Nat.pow 2 63)
  if b.mantissa = 0 then ⟨0, 0⟩
  else
    let r := Ratio.scaled b.mantissa b.exponent
    let k := magnitude r 700 (-330)
    dropZeros 20 (search b r k 20 (k - 1))

/-- The digits of a decimal as text. -/
def digitText (d : Decimal) : List Char := Nat.toDigits 10 d.digits

/-- Digits and point without an exponent; `point` asks for a point in whole numbers too. -/
def positional (d : Decimal) (point : Bool) : List Char :=
  let s := d.digitText
  if 0 ≤ d.exponent then
    (if d.digits = 0 then s else s ++ List.replicate d.exponent.natAbs '0')
      ++ (if point then ['.', '0'] else [])
  else
    let places := d.exponent.natAbs
    if places < s.length then s.take (s.length - places) ++ '.' :: s.drop (s.length - places)
    else '0' :: '.' :: List.replicate (places - s.length) '0' ++ s

/-- Digits with a point, and an exponent for large and small numbers. -/
def scientific (d : Decimal) : List Char :=
  let s := d.digitText
  let k : Int := s.length + d.exponent
  if d.digits = 0 ∨ (-5 < k ∧ k ≤ 16) then d.positional true
  else
    let head := s.take 1
    let tail := s.drop 1
    head ++ (if tail = [] then [] else '.' :: tail) ++ 'e' :: (toString (k - 1)).toList

end Decimal

/-- The sign of a number, with the words for what is not finite. -/
def floatText (layout : Decimal → List Char) (x : Float) : String :=
  if x.isNaN then "NaN"
  else
    let sign := if x.toBits.toNat / Nat.pow 2 63 = 1 then "-" else ""
    if x.isInf then sign ++ "inf" else sign ++ String.ofList (layout (Decimal.ofFloat x))

end DeclarationDocs

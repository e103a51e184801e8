/-!
# Digits

Decimal and hexadecimal digits and the numbers that runs of them stand for.
-/

namespace DeclarationDocs.Text

/-- Whether a character is a decimal digit. -/
def isDigit (c : Char) : Bool := '0' ≤ c && c ≤ '9'

/-- The value of a decimal digit. -/
def digitValue (c : Char) : Nat := c.toNat - '0'.toNat

/-- The value of a run of decimal digits. -/
def valueOfDigits (s : List Char) : Nat :=
  s.foldl (fun n x => n * 10 + digitValue x) 0

/-- The value of a hexadecimal digit. -/
def hexDigit? (c : Char) : Option Nat :=
  if '0' ≤ c ∧ c ≤ '9' then some (c.toNat - '0'.toNat)
  else if 'a' ≤ c ∧ c ≤ 'f' then some (c.toNat - 'a'.toNat + 10)
  else if 'A' ≤ c ∧ c ≤ 'F' then some (c.toNat - 'A'.toNat + 10)
  else none

/-- The number that digits of a base stand for, if all of them belong to that base. -/
def numberIn? (base : Nat) (s : List Char) : Option Nat :=
  s.foldlM (fun n c => do
    let d ← hexDigit? c
    if d < base then some (n * base + d) else none) 0

/-- A number in hexadecimal, small letters, without leading zeros. -/
def hex (n : Nat) : List Char := Nat.toDigits 16 n

end DeclarationDocs.Text

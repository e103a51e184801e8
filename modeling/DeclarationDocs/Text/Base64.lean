/-!
# Base 64

Bytes as text, three bytes in four characters; a shorter end is filled up with `=`.
-/

namespace DeclarationDocs.Text

/-- The digits. -/
def base64Digits : List Char :=
  "ABCDEFGHIJKLMNOPQRSTUVWXYZabcdefghijklmnopqrstuvwxyz0123456789+/".toList

/-- The digit with a value below 64. -/
def base64Digit (n : Nat) : Char := base64Digits[n]?.getD '='

/-- Bytes as text. -/
def base64 : List UInt8 → List Char
  | a :: b :: c :: r =>
    let n := a.toNat * 65536 + b.toNat * 256 + c.toNat
    base64Digit (n / 262144) :: base64Digit (n / 4096 % 64) :: base64Digit (n / 64 % 64)
      :: base64Digit (n % 64) :: base64 r
  | [a, b] =>
    let n := a.toNat * 1024 + b.toNat * 4
    [base64Digit (n / 4096), base64Digit (n / 64 % 64), base64Digit (n % 64), '=']
  | [a] =>
    let n := a.toNat * 16
    [base64Digit (n / 64), base64Digit (n % 64), '=', '=']
  | [] => []

end DeclarationDocs.Text

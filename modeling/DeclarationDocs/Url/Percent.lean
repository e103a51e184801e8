import DeclarationDocs.Text.Digits

/-!
# Percent encoding

Every part of a URL has its own set of characters that may not stand for themselves.  Such a
character is written as the bytes of its UTF-8 form, each behind a percent sign.

* `encode`: writing a part, given the characters to encode;
* `decode`: the bytes of a part.
-/

namespace DeclarationDocs.Url

/-- The digits of a byte, capital letters. -/
def byteDigits (b : UInt8) : List Char :=
  [b.toNat / 16, b.toNat % 16].map fun d => (Nat.digitChar d).toUpper

/-- A character as percent signs and digits. -/
def encodeChar (c : Char) : List Char :=
  (String.utf8EncodeChar c).flatMap fun b => '%' :: byteDigits b

/-- Write a part of a URL; the characters that satisfy `special` are encoded. -/
def encode (special : Char → Bool) (s : List Char) : List Char :=
  s.flatMap fun c => if special c then encodeChar c else [c]

/-- The bytes that a part of a URL stands for; a percent sign without two digits is itself. -/
def decode : List Char → List UInt8
  | '%' :: a :: b :: r =>
    match Text.hexDigit? a, Text.hexDigit? b with
    | some x, some y => UInt8.ofNat (x * 16 + y) :: decode r
    | _, _ => String.utf8EncodeChar '%' ++ decode (a :: b :: r)
  | c :: r => String.utf8EncodeChar c ++ decode r
  | [] => []

/-! ### The parts of a URL -/

/-- Control characters and everything outside ASCII. -/
def isControl (c : Char) : Bool := c.toNat < 0x20 || 0x7E < c.toNat

/-- What is encoded in a fragment. -/
def specialInFragment (c : Char) : Bool := isControl c || " \"<>`".toList.contains c

/-- What is encoded in a path. -/
def specialInPath (c : Char) : Bool := specialInFragment c || "#?\x7b\x7d".toList.contains c

/-- What is encoded in a user name or password. -/
def specialInUser (c : Char) : Bool := specialInPath c || "/:;=@[\\]^|".toList.contains c

/-- What is encoded in a query. -/
def specialInQuery (c : Char) : Bool := isControl c || " \"#<>'".toList.contains c

end DeclarationDocs.Url

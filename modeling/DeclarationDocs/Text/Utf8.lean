/-!
# UTF-8

The length of a text in bytes (`byteLength`), and decoding of bytes.  A sequence that encodes no
character is as long as the part of it that could have begun one, and at least one byte.
-/

namespace DeclarationDocs.Text

/-- The number of bytes that encode a text. -/
def byteLength : List Char → Nat
  | [] => 0
  | c :: r => c.utf8Size + byteLength r

/-- The number of bytes behind a first byte, the bounds of the second byte, and the bits that the
first byte gives; none if it starts no character. -/
def leadByte (b : Nat) : Option (Nat × Nat × Nat × Nat) :=
  if b < 0x80 then some (0, 0, 0, b)
  else if 0xC2 ≤ b ∧ b ≤ 0xDF then some (1, 0x80, 0xBF, b - 0xC0)
  else if b = 0xE0 then some (2, 0xA0, 0xBF, 0)
  else if b = 0xED then some (2, 0x80, 0x9F, 0xD)
  else if 0xE1 ≤ b ∧ b ≤ 0xEF then some (2, 0x80, 0xBF, b - 0xE0)
  else if b = 0xF0 then some (3, 0x90, 0xBF, 0)
  else if 0xF1 ≤ b ∧ b ≤ 0xF3 then some (3, 0x80, 0xBF, b - 0xF0)
  else if b = 0xF4 then some (3, 0x80, 0x8F, 4)
  else none

/-- Decode from left to right.  `pending` bytes of a character are still missing, the next one
between `low` and `high`; `value` holds the bits read.  A broken sequence gives `none`. -/
def decodeFrom (pending low high value : Nat) : List UInt8 → List (Option Char)
  | [] => if pending = 0 then [] else [none]
  | b :: r =>
    let n := b.toNat
    if pending ≠ 0 ∧ low ≤ n ∧ n ≤ high then
      let value := value * 64 + (n - 0x80)
      if pending = 1 then some (Char.ofNat value) :: decodeFrom 0 0 0 0 r
      else decodeFrom (pending - 1) 0x80 0xBF value r
    else
      let broken := if pending = 0 then [] else [none]
      match leadByte n with
      | none => broken ++ none :: decodeFrom 0 0 0 0 r
      | some (0, _, _, v) => broken ++ some (Char.ofNat v) :: decodeFrom 0 0 0 0 r
      | some (k, low, high, v) => broken ++ decodeFrom k low high v r

/-- The text that the bytes encode, if they encode one. -/
def decodeUtf8? (bytes : List UInt8) : Option String :=
  ((decodeFrom 0 0 0 0 bytes).mapM id).map String.ofList

/-- The text with the replacement character for every broken sequence. -/
def decodeUtf8Lossy (bytes : List UInt8) : String :=
  String.ofList ((decodeFrom 0 0 0 0 bytes).map fun c => c.getD '\ufffd')

end DeclarationDocs.Text

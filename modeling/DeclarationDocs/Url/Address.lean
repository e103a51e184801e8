import DeclarationDocs.Text.Digits
import DeclarationDocs.Text.Search

/-!
# Internet addresses

The numeric forms of a host.  An IPv4 address has one to four parts, decimal, octal (`0…`) or
hexadecimal (`0x…`), the last of which fills the bytes that are left.  An IPv6 address has eight
pieces, of which `::` leaves out a run of zeros; its last two may be written as an IPv4 address.

* `ipv4?`, `ipv4Text`: reading and writing IPv4 addresses;
* `ipv6?`, `ipv6Text`: reading and writing IPv6 addresses.
-/

namespace DeclarationDocs.Url

/-! ### IPv4 -/

/-- A part of an IPv4 address. -/
def ipv4Number? (s : List Char) : Option Nat :=
  match s with
  | [] => none
  | '0' :: 'x' :: r => Text.numberIn? 16 r
  | '0' :: 'X' :: r => Text.numberIn? 16 r
  | '0' :: d :: r => Text.numberIn? 8 (d :: r)
  | s => Text.numberIn? 10 s

/-- Whether a host ends in a number, which makes it an address; a dot at the end does not
count. -/
def endsInNumber (s : List Char) : Bool :=
  let last := match (Text.splitAt '.' s).reverse with
    | [] :: part :: _ => part
    | part :: _ => part
    | [] => []
  (!last.isEmpty && last.all Text.isDigit) || (ipv4Number? last).isSome

/-- The parts of an IPv4 address as one number of 32 bits: all but the last have one byte. -/
def ipv4Value? : Nat → List Nat → Option Nat
  | room + 1, [last] => if last < Nat.pow 256 (room + 1) then some last else none
  | room + 1, part :: parts =>
    if part < 256 then (ipv4Value? room parts).map (part * Nat.pow 256 room + ·) else none
  | _, _ => none

/-- The number of an IPv4 address. -/
def ipv4? (s : List Char) : Option Nat := do
  let parts := Text.splitAt '.' s
  let parts := if parts.getLast? = some [] then parts.dropLast else parts
  ipv4Value? 4 (← parts.mapM ipv4Number?)

/-- An IPv4 address as four decimal bytes. -/
def ipv4Text (n : Nat) : List Char :=
  let byte := fun k => Nat.toDigits 10 (n / Nat.pow 256 k % 256)
  byte 3 ++ '.' :: byte 2 ++ '.' :: byte 1 ++ '.' :: byte 0

/-! ### IPv6 -/

/-- A byte of an IPv4 address inside an IPv6 address: decimal, without leading zeros. -/
def plainByte? (s : List Char) : Option Nat :=
  match s with
  | [] => none
  | '0' :: _ :: _ => none
  | s => if s.all Text.isDigit then (Text.numberIn? 10 s).filter (· < 256) else none

/-- The two pieces that an IPv4 address stands for. -/
def ipv4Pieces? (s : List Char) : Option (List Nat) := do
  match ← (Text.splitAt '.' s).mapM plainByte? with
  | [a, b, c, d] => some [a * 256 + b, c * 256 + d]
  | _ => none

/-- Pieces read so far, and how many stand before the `::` if there was one. -/
structure Pieces where
  read : List Nat
  gap : Option Nat

/-- Read pieces, `::` included; the first argument bounds their number. -/
def pieces? : Nat → List Char → Pieces → Option Pieces
  | _, [], p => some p
  | 0, _ :: _, _ => none
  | n + 1, c :: r, p =>
    if p.read.length = 8 then none
    else if c = ':' then
      if p.gap.isSome then none else pieces? n r ⟨p.read ++ [0], some (p.read.length + 1)⟩
    else
      let digits := ((c :: r).takeWhile fun x => (Text.hexDigit? x).isSome).take 4
      let value := (Text.numberIn? 16 digits).getD 0
      match (c :: r).drop digits.length with
      | [] => some ⟨p.read ++ [value], p.gap⟩
      | '.' :: _ =>
        if digits.isEmpty ∨ 6 < p.read.length then none
        else (ipv4Pieces? (c :: r)).map fun more => ⟨p.read ++ more, p.gap⟩
      | ':' :: rest => if rest.isEmpty then none else pieces? n rest ⟨p.read ++ [value], p.gap⟩
      | _ => none

/-- The eight pieces of an IPv6 address, written without brackets. -/
def ipv6? (s : List Char) : Option (List Nat) := do
  let found ← match s with
    | ':' :: ':' :: r => pieces? 9 r ⟨[0], some 1⟩
    | ':' :: _ => none
    | [] => none
    | [_] => none
    | s => pieces? 9 s ⟨[], none⟩
  match found.gap with
  | some g =>
    some (found.read.take g ++ List.replicate (8 - found.read.length) 0 ++ found.read.drop g)
  | none => if found.read.length = 8 then some found.read else none

/-- The length of the run of zeros at the start. -/
def zeroRun (ps : List Nat) : Nat := (ps.takeWhile (· = 0)).length

/-- Where the first longest run of two or more zeros starts, and its length. -/
def longestZeros (ps : List Nat) : Option (Nat × Nat) :=
  (List.range ps.length).foldl (fun best i =>
    let n := zeroRun (ps.drop i)
    if (best.elim 1 Prod.snd) < n then some (i, n) else best) none

/-- Pieces with colons between them. -/
def joinPieces (ps : List Nat) : List Char :=
  ((ps.map Text.hex).intersperse [':']).flatten

/-- An IPv6 address with its longest run of zeros left out. -/
def ipv6Text (ps : List Nat) : List Char :=
  match longestZeros ps with
  | some (i, n) => joinPieces (ps.take i) ++ ':' :: ':' :: joinPieces (ps.drop (i + n))
  | none => joinPieces ps

end DeclarationDocs.Url

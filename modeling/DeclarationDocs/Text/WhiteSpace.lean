/-!
# White space

The Unicode `White_Space` property, and trimming by it.  The lists of characters are the
ones that every other module works on; the `String` version only wraps them.
-/

namespace DeclarationDocs.Text

/-- The characters with the Unicode property `White_Space`. -/
def isWhiteSpace (c : Char) : Bool :=
  let n := c.toNat
  (9 ≤ n && n ≤ 13) || n == 0x20 || n == 0x85 || n == 0xA0 || n == 0x1680
    || (0x2000 ≤ n && n ≤ 0x200A) || n == 0x2028 || n == 0x2029 || n == 0x202F
    || n == 0x205F || n == 0x3000

/-- Drop the longest suffix whose characters all satisfy `p`. -/
def dropEndWhile (p : Char → Bool) (s : List Char) : List Char :=
  (s.reverse.dropWhile p).reverse

/-- Drop the white space at the end of a text. -/
def trimEndChars (s : List Char) : List Char :=
  dropEndWhile isWhiteSpace s

/-- Drop the white space at both ends of a text. -/
def trimChars (s : List Char) : List Char :=
  trimEndChars (s.dropWhile isWhiteSpace)

/-- `trimChars` on strings. -/
def trim (s : String) : String :=
  String.ofList (trimChars s.toList)

end DeclarationDocs.Text

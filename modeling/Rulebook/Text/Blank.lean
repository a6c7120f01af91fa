import Rulebook.Text.Scalar

/-!
# Blank characters

The characters with the property White_Space, and the cuts at blank characters that the rest of the
library needs.
-/

namespace Rulebook

/-- A character with the property White_Space. -/
def isBlank (c : Char) : Bool :=
  let n := c.toNat
  (9 ≤ n && n ≤ 13) || n == 0x20 || n == 0x85 || n == 0xA0 || n == 0x1680 ||
    (0x2000 ≤ n && n ≤ 0x200A) || n == 0x2028 || n == 0x2029 || n == 0x202F || n == 0x205F ||
    n == 0x3000

namespace Bytes

/-- The characters from the first that is not blank on. -/
def dropBlank (s : List Scalar) : List Scalar := s.dropWhile (isBlank ·.char)

/-- The characters up to the last that is not blank. -/
def dropBlankEnd (s : List Scalar) : List Scalar := (dropBlank s.reverse).reverse

/-- The text without the blank characters at its two ends. -/
def trim (s : Bytes) : Bytes := ofScalars (dropBlankEnd (dropBlank s.scalars))

end Bytes

end Rulebook

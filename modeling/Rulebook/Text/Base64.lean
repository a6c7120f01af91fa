import Rulebook.Text.Bytes

/-!
# Base 64

Bytes written with an alphabet of 64 characters, three bytes as four characters.
-/

namespace Rulebook

namespace Base64

/-- The characters, each at the place of its value. -/
def alphabet : Bytes := "ABCDEFGHIJKLMNOPQRSTUVWXYZabcdefghijklmnopqrstuvwxyz0123456789+/"

/-- The character for the low six bits of a number. -/
def digit (n : Nat) : UInt8 := alphabet.getD (n % 64) 61

/-- Bytes in base 64. The last group is filled up with equals signs. -/
def encode : Bytes → Bytes
  | [] => []
  | [a] =>
      let n := a.toNat * 16
      [digit (n / 64), digit n, 61, 61]
  | [a, b] =>
      let n := (a.toNat * 256 + b.toNat) * 4
      [digit (n / 4096), digit (n / 64), digit n, 61]
  | a :: b :: c :: rest =>
      let n := a.toNat * 65536 + b.toNat * 256 + c.toNat
      digit (n / 262144) :: digit (n / 4096) :: digit (n / 64) :: digit n :: encode rest

/-- A text in lines of a width, which is cut off at the given number of lines. -/
def wrapWithin (width : Nat) : Nat → Bytes → List Bytes
  | 0, _ => []
  | lines + 1, s => if s.isEmpty then [] else s.take width :: wrapWithin width lines (s.drop width)

/-- A text in lines of a width. -/
def wrap (width : Nat) (s : Bytes) : List Bytes := wrapWithin width s.length s

end Base64

end Rulebook

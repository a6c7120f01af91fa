import Rulebook.Text.Bytes

/-!
# Characters of a byte string

`Bytes.scalars` reads a byte string as UTF-8. Where the bytes are not UTF-8, one byte is taken by
itself and reads as the replacement character, so that every byte string is a list of scalars and
each scalar keeps the bytes it came from.
-/

namespace Rulebook

/-- One character of a byte string, with the bytes it was read from. -/
structure Scalar where
  /-- The character, U+FFFD for a byte that is not UTF-8. -/
  char : Char
  /-- The bytes that were read. -/
  bytes : Bytes
  deriving DecidableEq, Repr

namespace Scalar

/-- The character that stands for a byte that is not UTF-8. -/
def replacement : Char := Char.ofNat 0xFFFD

/-- A byte that does not start a character. -/
def stray (b : UInt8) : Scalar := ⟨replacement, [b]⟩

/-- True of a byte that is not UTF-8. A replacement character that was written out takes three
    bytes and is not stray. -/
def isStray (s : Scalar) : Bool := s.char == replacement && s.bytes.length == 1

/-- The number of the character. -/
def code (s : Scalar) : Nat := s.char.toNat

/-- How many bytes the character takes. -/
def width (s : Scalar) : Nat := s.bytes.length

/-- The payload of a continuation byte in the given range. -/
def tail? (low high : Nat) (b : UInt8) : Option Nat :=
  if low ≤ b.toNat && b.toNat ≤ high then some (b.toNat - 0x80) else none

/-- A character of two bytes. -/
def two? (a : UInt8) : Bytes → Option Scalar
  | b :: _ => do
      let y ← tail? 0x80 0xBF b
      pure ⟨Char.ofNat ((a.toNat - 0xC0) * 64 + y), [a, b]⟩
  | _ => none

/-- A character of three bytes, whose second byte lies in the given range. -/
def three? (a : UInt8) (low high : Nat) : Bytes → Option Scalar
  | b :: c :: _ => do
      let y ← tail? low high b
      let z ← tail? 0x80 0xBF c
      pure ⟨Char.ofNat ((a.toNat - 0xE0) * 4096 + y * 64 + z), [a, b, c]⟩
  | _ => none

/-- A character of four bytes, whose second byte lies in the given range. -/
def four? (a : UInt8) (low high : Nat) : Bytes → Option Scalar
  | b :: c :: d :: _ => do
      let y ← tail? low high b
      let z ← tail? 0x80 0xBF c
      let w ← tail? 0x80 0xBF d
      pure ⟨Char.ofNat ((a.toNat - 0xF0) * 262144 + y * 4096 + z * 64 + w), [a, b, c, d]⟩
  | _ => none

/-- The character of several bytes that a lead byte starts, if the bytes after it complete one. -/
def several? (a : UInt8) (rest : Bytes) : Option Scalar :=
  let n := a.toNat
  if 0xC2 ≤ n && n ≤ 0xDF then two? a rest
  else if n == 0xE0 then three? a 0xA0 0xBF rest
  else if n == 0xED then three? a 0x80 0x9F rest
  else if 0xE1 ≤ n && n ≤ 0xEF then three? a 0x80 0xBF rest
  else if n == 0xF0 then four? a 0x90 0xBF rest
  else if 0xF1 ≤ n && n ≤ 0xF3 then four? a 0x80 0xBF rest
  else if n == 0xF4 then four? a 0x80 0x8F rest
  else none

/-- The character at the head of the bytes `a :: rest`. -/
def ofHead (a : UInt8) (rest : Bytes) : Scalar :=
  if a < 0x80 then ⟨Char.ofNat a.toNat, [a]⟩ else (several? a rest).getD (stray a)

/-- A letter, digit or underscore of ASCII. -/
def isWordChar (c : Char) : Bool := c.isAlphanum || c == '_'

end Scalar

namespace Bytes

/-- The characters after the first `skip` bytes. -/
def scalarsFrom : Nat → Bytes → List Scalar
  | _, [] => []
  | skip + 1, _ :: rest => scalarsFrom skip rest
  | 0, b :: rest =>
      let s := Scalar.ofHead b rest
      s :: scalarsFrom (s.width - 1) rest

/-- The characters of a byte string. -/
def scalars (s : Bytes) : List Scalar := scalarsFrom 0 s

/-- The bytes of a list of characters. -/
def ofScalars (s : List Scalar) : Bytes := s.flatMap Scalar.bytes

/-- True if the bytes are UTF-8. -/
def isUtf8 (s : Bytes) : Bool := s.scalars.all (!·.isStray)

end Bytes

end Rulebook

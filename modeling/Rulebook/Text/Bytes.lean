/-!
# Byte strings

Every text that this library reads or writes is a list of bytes: names, sources and patterns may
hold bytes that are not UTF-8, and every offset counts bytes. A string literal stands for its
UTF-8 bytes.
-/

namespace Rulebook

/-- A text as the bytes it is made of. -/
abbrev Bytes := List UInt8

namespace Bytes

/-- The UTF-8 bytes of a string. -/
def ofString (s : String) : Bytes := s.toUTF8.data.toList

instance : Coe String Bytes := ⟨ofString⟩

/-- The bytes of one character. -/
def ofChar (c : Char) : Bytes := String.utf8EncodeChar c

/-- A digit of base sixteen or less, in lower case. -/
def digit (n : Nat) : UInt8 :=
  if n < 10 then (48 + n).toUInt8 else (87 + n).toUInt8

/-- A natural number in decimal, without leading zeros. -/
def decimal (n : Nat) : Bytes := (Nat.toDigits 10 n).flatMap ofChar

/-- An integer in decimal, with a minus sign if it is negative. -/
def integer : Int → Bytes
  | .ofNat n => decimal n
  | .negSucc n => "-" ++ decimal (n + 1)

/-- The last `width` digits of a number in base sixteen. -/
def hex : Nat → Nat → Bytes
  | 0, _ => []
  | width + 1, n => hex width (n / 16) ++ [digit (n % 16)]

/-- The parts with a separator between them. -/
def join (separator : Bytes) (parts : List Bytes) : Bytes := List.intercalate separator parts

/-- A text written `n` times. -/
def times (n : Nat) (s : Bytes) : Bytes := (List.replicate n s).flatten

/-- The bytes from offset `start` up to, and without, offset `stop`. -/
def slice (s : Bytes) (start stop : Nat) : Bytes := (s.drop start).take (stop - start)

/-- A letter, digit or underscore of ASCII. -/
def isWord (b : UInt8) : Bool :=
  (48 ≤ b && b ≤ 57) || (65 ≤ b && b ≤ 90) || b == 95 || (97 ≤ b && b ≤ 122)

/-- The number a hexadecimal digit stands for. -/
def unhex? (b : UInt8) : Option Nat :=
  if 48 ≤ b && b ≤ 57 then some (b.toNat - 48)
  else if 97 ≤ b && b ≤ 102 then some (b.toNat - 87)
  else if 65 ≤ b && b ≤ 70 then some (b.toNat - 55)
  else none

end Bytes

end Rulebook

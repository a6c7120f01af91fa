import Rulebook.Text.Bytes

/-!
# Timestamps

The texts that a YAML reader takes for a point in time: a date such as `2001-12-14`, alone or
followed by a time of day.
-/

namespace Rulebook

namespace Yaml

/-- True of a decimal digit. -/
def isDigit (b : UInt8) : Bool := 48 ≤ b && b ≤ 57

/-- The number that decimal digits spell. -/
def readDecimal (digits : Bytes) : Nat := digits.foldl (fun n d => n * 10 + (d.toNat - 48)) 0

namespace Timestamp

/-- A number of one or two digits, and the rest. -/
def number? : Bytes → Option (Nat × Bytes)
  | a :: b :: rest =>
      if !isDigit a then none
      else if isDigit b then some (readDecimal [a, b], rest)
      else some (readDecimal [a], b :: rest)
  | [a] => if isDigit a then some (readDecimal [a], []) else none
  | [] => none

/-- What follows a given byte. -/
def after? (mark : UInt8) : Bytes → Option Bytes
  | b :: rest => if b == mark then some rest else none
  | [] => none

/-- The days of a month. -/
def daysIn (year month : Nat) : Nat :=
  if month == 2 then
    if year % 4 == 0 && (year % 100 != 0 || year % 400 == 0) then 29 else 28
  else if [4, 6, 9, 11].contains month then 30
  else 31

/-- Reads a date and tells the rest. The year has four digits. -/
def date? (s : Bytes) : Option Bytes := do
  let digits := s.takeWhile isDigit
  guard (digits.length == 4)
  let rest ← after? 45 (s.drop 4)
  let (month, rest) ← number? rest
  guard (1 ≤ month && month ≤ 12)
  let rest ← after? 45 rest
  let (day, rest) ← number? rest
  guard (1 ≤ day && day ≤ daysIn (readDecimal digits) month)
  pure rest

/-- What follows the fraction of a second, if there is one. -/
def skipFraction : Bytes → Bytes
  | mark :: d :: rest =>
      if (mark == 44 || mark == 46) && isDigit d then rest.dropWhile isDigit else mark :: d :: rest
  | s => s

/-- Reads a time of day and tells the rest. -/
def time? (s : Bytes) : Option Bytes := do
  let (hour, rest) ← number? s
  guard (hour < 24)
  let rest ← after? 58 rest
  let (minute, rest) ← number? rest
  guard (minute < 60)
  let rest ← after? 58 rest
  let (second, rest) ← number? rest
  guard (second < 60)
  pure (skipFraction rest)

/-- True of the mark of universal time, or of an offset such as `+01:00`. -/
def isZone : Bytes → Bool
  | [90] => true
  | [sign, a, b, colon, c, d] =>
      (sign == 43 || sign == 45) && colon == 58 && [a, b, c, d].all isDigit &&
        readDecimal [a, b] ≤ 24 && readDecimal [c, d] ≤ 60
  | _ => false

/-- True of what may follow a date: nothing, a time of day after spaces, or a time of day with its
    zone after the letter T. -/
def isRest : Bytes → Bool
  | [] => true
  | mark :: rest =>
      if mark == 32 then time? (rest.dropWhile (· == 32)) == some []
      else if mark == 84 || mark == 116 then (time? rest).any isZone
      else false

end Timestamp

/-- True of the texts that are read as a point in time. -/
def isTimestamp (s : Bytes) : Bool := (Timestamp.date? s).any Timestamp.isRest

end Yaml

end Rulebook

import Rulebook.Yaml.Timestamp

/-!
# Implicit types

Without quotes, a YAML reader takes some texts for something else than text: numbers, truth values,
points in time. Such texts have to be quoted. So do the texts that only older readers take for
something else.
-/

namespace Rulebook

namespace Yaml

/-- The texts that have a meaning of their own. -/
def words : List Bytes :=
  ["true", "True", "TRUE", "false", "False", "FALSE", "", "~", "null", "Null", "NULL", ".nan",
    ".NaN", ".NAN", ".inf", ".Inf", ".INF", "+.inf", "+.Inf", "+.INF", "-.inf", "-.Inf", "-.INF"]

/-- The truth values of older readers. -/
def oldBooleans : List Bytes :=
  ["y", "Y", "yes", "Yes", "YES", "on", "On", "ON", "n", "N", "no", "No", "NO", "off", "Off", "OFF"]

/-! ## Integers -/

/-- The number that digits spell in a base of at most sixteen. -/
def readBase? (base : Nat) (digits : Bytes) : Option Nat :=
  digits.foldlM (fun n b => do
    let d ← Bytes.unhex? b
    if d < base then pure (n * base + d) else none) 0

/-- The number that a text without a sign spells, in base two, eight or sixteen if it has the mark
    of that base, in base eight if it starts with a zero, else in base ten. -/
def readUnsigned? : Bytes → Option Nat
  | [] => none
  | 48 :: mark :: d :: rest =>
      if mark == 98 || mark == 66 then readBase? 2 (d :: rest)
      else if mark == 111 || mark == 79 then readBase? 8 (d :: rest)
      else if mark == 120 || mark == 88 then readBase? 16 (d :: rest)
      else readBase? 8 (mark :: d :: rest)
  | 48 :: rest => readBase? 8 rest
  | s => readBase? 10 s

/-- True if a number fits into 64 bits: without a sign into unsigned ones, with one into signed
    ones. -/
def fits (sign : Option UInt8) (n : Nat) : Bool :=
  match sign with
  | none => n < UInt64.size
  | some 45 => n ≤ UInt64.size / 2
  | some _ => n < UInt64.size / 2

/-- The sign of a text, and the rest. -/
def splitSign : Bytes → Option UInt8 × Bytes
  | b :: rest => if b == 43 || b == 45 then (some b, rest) else (none, b :: rest)
  | [] => (none, [])

/-- True if a text spells an integer in a base, with a sign or without. -/
def isSignedIn (base : Nat) (s : Bytes) : Bool :=
  match splitSign s with
  | (sign, digits) => !digits.isEmpty && (readBase? base digits).any (fits sign)

/-- True of the texts that are read as an integer. After the marks of base two and eight there may
    be a sign. -/
def isInteger (s : Bytes) : Bool :=
  let direct :=
    match splitSign s with
    | (sign, rest) => (readUnsigned? rest).any (fits sign)
  let marked :=
    match s with
    | 48 :: 98 :: rest => isSignedIn 2 rest
    | 48 :: 111 :: rest => isSignedIn 8 rest
    | _ => false
  direct || marked

/-! ## Fractions -/

/-- A decimal fraction: its digits as a number, and the power of ten to multiply it with. -/
structure Fraction where
  digits : Nat
  power : Int

/-- The least number that is too large for a binary fraction of 64 bits: halfway between the largest
    of them and the next power of two. -/
def overflowBound : Nat := Nat.pow 2 1024 - Nat.pow 2 970

/-- True if a fraction is too large for a binary fraction of 64 bits. -/
def Fraction.isTooLarge (f : Fraction) : Bool :=
  if f.digits == 0 then false
  else
    let magnitude : Int := (Nat.toDigits 10 f.digits).length + f.power
    if 400 < magnitude then true
    else if magnitude < 300 then false
    else if 0 ≤ f.power then overflowBound ≤ f.digits * Nat.pow 10 f.power.toNat
    else overflowBound * Nat.pow 10 (-f.power).toNat ≤ f.digits

/-- Reads the exponent of a fraction. Nothing may follow it. -/
def readExponent? : Bytes → Option Int
  | [] => some 0
  | mark :: rest =>
      if mark == 101 || mark == 69 then
        match splitSign rest with
        | (sign, digits) =>
            if digits.isEmpty || !digits.all isDigit then none
            else
              let n : Int := readDecimal digits
              some (if sign == some 45 then -n else n)
      else none

/-- Reads digits, a point and more digits, either of which may be missing but not both, and an
    exponent. -/
def readFraction? (s : Bytes) : Option Fraction := do
  let whole := s.takeWhile isDigit
  let rest := s.dropWhile isDigit
  let (part, rest) :=
    match rest with
    | 46 :: more => (more.takeWhile isDigit, more.dropWhile isDigit)
    | _ => ([], rest)
  guard (!(whole ++ part).isEmpty)
  let exponent ← readExponent? rest
  pure ⟨readDecimal (whole ++ part), exponent - part.length⟩

/-- True of the texts that are read as a fraction. -/
def isFraction (s : Bytes) : Bool := (readFraction? (splitSign s).2).any (!·.isTooLarge)

/-- True if every underscore stands between two digits. -/
def underscoresBetweenDigits (afterDigit : Bool) : Bytes → Bool
  | [] => true
  | 95 :: d :: rest => afterDigit && isDigit d && underscoresBetweenDigits true rest
  | [95] => false
  | b :: rest => underscoresBetweenDigits (isDigit b) rest

/-- A text without its underscores. -/
def dropUnderscores (s : Bytes) : Bytes := s.filter (· != 95)

/-! ## Numbers in base sixty -/

/-- True of what may follow the first digits of a number in base sixty: at least one place, each of
    a colon and one or two digits, and after the last a fraction. -/
def isPlaces : Bytes → Bool
  | 58 :: a :: b :: rest =>
      if isDigit a && isDigit b && a < 54 then isEnd rest || isPlaces rest
      else isDigit a && (isEnd (b :: rest) || isPlaces (b :: rest))
  | [58, a] => isDigit a
  | _ => false
where
  /-- The end of the number. -/
  isEnd : Bytes → Bool
    | [] => true
    | b :: rest => b == 46 && rest.all fun d => isDigit d || d == 95

/-- True of the texts that older readers take for a number in base sixty. -/
def isSexagesimal (s : Bytes) : Bool :=
  match (splitSign s).2 with
  | d :: rest => isDigit d && isPlaces (rest.dropWhile fun b => isDigit b || b == 95)
  | [] => false

/-! ## Texts -/

/-- True of the texts that are read as something else than text. -/
def isImplicit (s : Bytes) : Bool :=
  words.contains s ||
    match s with
    | [] => true
    | b :: _ =>
        if b == 46 then underscoresBetweenDigits false s && isFraction (dropUnderscores s)
        else if b == 43 || b == 45 || isDigit b then
          isTimestamp s || isInteger (dropUnderscores s) || isFraction (dropUnderscores s)
        else false

/-- True of the texts that every reader takes for text. -/
def isPlainText (s : Bytes) : Bool :=
  !isImplicit s && !isSexagesimal s && !oldBooleans.contains s

end Yaml

end Rulebook

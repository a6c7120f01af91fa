import Rulebook.Text.Category
import Rulebook.Text.Scalar

/-!
# Quoted text

`Bytes.quote` writes a byte string between double quotes on one line: printable characters stand for
themselves, all others are escaped, and a byte that is not UTF-8 is written `\xhh`.
`Bytes.unquote?` reads a quoted text back. It also reads text between single quotes, which holds
at most one character, and text between back quotes, which has no escapes.
-/

namespace Rulebook

/-- The characters beyond ASCII that are written as themselves: letters, marks, numbers,
    punctuation and signs. -/
def printableSet : CharSet :=
  .unionAll [Category.letter, Category.mark, Category.number, Category.punctuation, Category.sign]

/-- A character that is written as itself. Of the blanks, only the space of ASCII is. -/
def isPrintable (c : Char) : Bool :=
  if c.toNat < 0x80 then 0x20 ≤ c.toNat && c.toNat < 0x7F else printableSet.contains c.toNat

namespace Bytes

/-- The letter that stands for a control character after a backslash. -/
def escapeLetter? (c : Char) : Option UInt8 :=
  match c.toNat with
  | 7 => some 97
  | 8 => some 98
  | 12 => some 102
  | 10 => some 110
  | 13 => some 114
  | 9 => some 116
  | 11 => some 118
  | _ => none

/-- A character that is not printable, as an escape. -/
def escapeChar (c : Char) : Bytes :=
  match escapeLetter? c with
  | some letter => [92, letter]
  | none =>
      let n := c.toNat
      if n < 0x20 || n == 0x7F then "\\x" ++ hex 2 n
      else if n < 0x10000 then "\\u" ++ hex 4 n
      else "\\U" ++ hex 8 n

/-- One character of a quoted text. -/
def quoteScalar (s : Scalar) : Bytes :=
  if s.isStray then "\\x" ++ s.bytes.flatMap fun b => hex 2 b.toNat
  else if s.char == '"' || s.char == '\\' then 92 :: s.bytes
  else if isPrintable s.char then s.bytes
  else escapeChar s.char

/-- A text between double quotes. -/
def quote (s : Bytes) : Bytes := "\"" ++ s.scalars.flatMap quoteScalar ++ "\""

/-- The number that the first `n` bytes spell in base sixteen. -/
def readHex? : Nat → Bytes → Option Nat
  | n, s => if s.length < n then none else (s.take n).foldlM (fun v b => do
      let d ← unhex? b
      pure (v * 16 + d)) 0

/-- The character that the first `n` bytes name in base sixteen. -/
def readChar? (n : Nat) (s : Bytes) : Option Bytes := do
  let v ← readHex? n s
  if v < 0xD800 || (0xDFFF < v && v ≤ 0x10FFFF) then pure (ofChar (Char.ofNat v)) else none

/-- The byte that three octal digits name. -/
def readOctal? : Bytes → Option UInt8
  | a :: b :: c :: _ =>
      if [a, b, c].all fun d => 48 ≤ d && d ≤ 55 then
        let v := (a.toNat - 48) * 64 + (b.toNat - 48) * 8 + (c.toNat - 48)
        if v ≤ 255 then some v.toUInt8 else none
      else none
  | _ => none

/-- What the bytes after a backslash stand for, and how many of them belong to the escape. Of the
    two quotes only the one around the text can be escaped. -/
def unescape? (quote : UInt8) : Bytes → Option (Bytes × Nat)
  | [] => none
  | c :: rest =>
      if c == 97 then some ([7], 1)
      else if c == 98 then some ([8], 1)
      else if c == 102 then some ([12], 1)
      else if c == 110 then some ([10], 1)
      else if c == 114 then some ([13], 1)
      else if c == 116 then some ([9], 1)
      else if c == 118 then some ([11], 1)
      else if c == 120 then (readHex? 2 rest).map fun v => ([v.toUInt8], 3)
      else if c == 117 then (readChar? 4 rest).map fun s => (s, 5)
      else if c == 85 then (readChar? 8 rest).map fun s => (s, 9)
      else if 48 ≤ c && c ≤ 55 then (readOctal? (c :: rest)).map fun v => ([v], 3)
      else if c == 92 || c == quote then some ([c], 1)
      else none

/-- What the characters of a quoted text stand for, one after another, with the number of bytes
    that each takes beyond its first. A line break must be escaped. -/
def unquoteHead? (quote b : UInt8) (rest : Bytes) : Option (Bytes × Nat) :=
  if b == 10 then none
  else if b == 92 then unescape? quote rest
  else if b < 0x80 then some ([b], 0)
  else
    let s := Scalar.ofHead b rest
    some (ofChar s.char, s.width - 1)

/-- Reads up to the closing double quote, which must be the last byte, after skipping some bytes. -/
def unquoteFrom : Nat → Bytes → Option Bytes
  | _, [] => none
  | skip + 1, _ :: rest => unquoteFrom skip rest
  | 0, b :: rest =>
      if b == 34 then
        if rest.isEmpty then some [] else none
      else
        match unquoteHead? 34 b rest with
        | none => none
        | some (out, skip) => (unquoteFrom skip rest).map (out ++ ·)

/-- Reads at most one character and the closing single quote, which must be the last byte. -/
def unquoteOne : Bytes → Option Bytes
  | [] => none
  | b :: rest =>
      if b == 39 then
        if rest.isEmpty then some [] else none
      else do
        let (out, skip) ← unquoteHead? 39 b rest
        if rest.drop skip == [39] then pure out else none

/-- Reads up to the closing back quote, which must be the last byte. Carriage returns are left
    out. -/
def unquoteRaw (s : Bytes) : Option Bytes :=
  match s.reverse with
  | 96 :: body => if body.contains 96 then none else some (body.reverse.filter (· != 13))
  | _ => none

/-- The text that a quoted text stands for. -/
def unquote? : Bytes → Option Bytes
  | 34 :: rest => unquoteFrom 0 rest
  | 39 :: rest => unquoteOne rest
  | 96 :: rest => unquoteRaw rest
  | _ => none

end Bytes

end Rulebook

import Rulebook.Text.Base64
import Rulebook.Text.Scalar
import Rulebook.Yaml.Implicit

/-!
# Scalars

A text as the value of a YAML mapping. Texts of several lines are written as blocks, other texts
plainly where that is safe, and otherwise in quotes: single quotes if nothing has to be escaped.
Bytes that are not UTF-8 are written in base 64.
-/

namespace Rulebook

namespace Yaml

/-! ## Characters -/

/-- A character that may stand for itself. -/
def isPrintable (c : Char) : Bool :=
  let n := c.toNat
  n == 0x0A || (0x20 ≤ n && n ≤ 0x7E) || (0xA0 ≤ n && n ≤ 0xD7FF) ||
    (0xE000 ≤ n && n ≤ 0xFFFD && n != 0xFEFF)

/-- A space or a tab. -/
def isBlank (c : Char) : Bool := c == ' ' || c == '\t'

/-- A character that ends a line. -/
def isBreak (c : Char) : Bool :=
  c == '\r' || c == '\n' || c.toNat == 0x85 || c.toNat == 0x2028 || c.toNat == 0x2029

/-- True if a blank or the end of the text follows. -/
def endsWord : List Char → Bool
  | [] => true
  | c :: _ => isBlank c

/-! ## What a text holds -/

/-- True if a text cannot be plain because of the marks at its start. -/
def startsWithMark : List Char → Bool
  | [] => false
  | c :: rest =>
      "#,[]\x7b\x7d&*!|>'\"%@`".toList.contains c ||
        ((c == '?' || c == ':' || c == '-') && endsWord rest) ||
        ("---".toList.isPrefixOf (c :: rest) || "...".toList.isPrefixOf (c :: rest))

/-- True if a text cannot be plain because of the marks within it: a colon at the end of a word or
    a number sign at the start of one. -/
def holdsMark : List Char → Bool
  | c :: d :: rest =>
      (d == ':' && endsWord rest) ||
        (d == '#' && (isBlank c || isBreak c || c.toNat == 0)) || holdsMark (d :: rest)
  | _ => false

/-- True if one character of two kinds follows another. -/
def holdsPair (p q : Char → Bool) (chars : List Char) : Bool :=
  (chars.zip (chars.drop 1)).any fun (c, d) => p c && q d

/-- True if a text has a character that must be escaped. -/
def needsEscape (chars : List Char) : Bool :=
  chars.any (fun c => c != '\t' && !isPrintable c) || holdsPair (· == ' ') isBreak chars

/-- True if a text can be written in single quotes. -/
def singleAllowed (chars : List Char) : Bool :=
  !needsEscape chars && !chars.contains '\t' && !holdsPair isBreak (· == ' ') chars

/-- True if a text can be written without quotes. -/
def plainAllowed (chars : List Char) : Bool :=
  singleAllowed chars && !chars.any isBreak && chars.head? != some ' ' &&
    chars.getLast? != some ' ' && !startsWithMark chars && !holdsMark chars

/-- True if a text can be written as a block. -/
def blockAllowed (chars : List Char) : Bool :=
  !needsEscape chars && chars.getLast? != some ' '

/-! ## Styles -/

/-- A written value, and whether it has ended its last line already. -/
structure Written where
  text : Bytes
  atLineStart : Bool

/-- What is written so far and then some bytes on the same line. -/
def Written.onLine (text : Bytes) : Written := ⟨text, false⟩

/-- The letter that stands for a character after a backslash. -/
def escapeLetter? (n : Nat) : Option UInt8 :=
  [(0x00, 48), (0x07, 97), (0x08, 98), (0x09, 116), (0x0A, 110), (0x0B, 118), (0x0C, 102),
    (0x0D, 114), (0x1B, 101), (0x22, 34), (0x5C, 92), (0x85, 78), (0xA0, 95), (0x2028, 76),
    (0x2029, 80)].lookup n

/-- A number in base sixteen with capital letters. -/
def upperHex (width n : Nat) : Bytes :=
  (Bytes.hex width n).map fun b => if 97 ≤ b then b - 32 else b

/-- A character as an escape. -/
def escape (c : Char) : Bytes :=
  let n := c.toNat
  match escapeLetter? n with
  | some letter => [92, letter]
  | none =>
      if n ≤ 0xFF then "\\x" ++ upperHex 2 n
      else if n ≤ 0xFFFF then "\\u" ++ upperHex 4 n
      else "\\U" ++ upperHex 8 n

/-- A text in double quotes. All of a text that begins with a byte order mark is escaped. -/
def doubleQuoted (chars : List Char) : Bytes :=
  let marked := chars.head?.any (·.toNat == 0xFEFF)
  let one (c : Char) : Bytes :=
    if marked || !isPrintable c || isBreak c || c == '"' || c == '\\' then escape c
    else Bytes.ofChar c
  "\"" ++ chars.flatMap one ++ "\""

/-- The characters of a text over several lines. After a line break the text goes on under the
    indentation. -/
def indented (indent : Nat) (one : Char → Bytes) (atLineStart : Bool) : List Char → Bytes
  | [] => []
  | c :: rest =>
      if isBreak c then Bytes.ofChar c ++ indented indent one true rest
      else
        (if atLineStart then Bytes.times indent " " else []) ++ one c ++
          indented indent one false rest

/-- A text in single quotes, in which the quote is written twice. -/
def singleQuoted (indent : Nat) (chars : List Char) : Bytes :=
  let one (c : Char) : Bytes := if c == '\'' then [39, 39] else Bytes.ofChar c
  "'" ++ indented indent one false chars ++ "'"

/-- The marks after the bar of a block: whether the text starts with a blank or an empty line, and
    whether it ends with no line break or with several. -/
def blockMarks (chars : List Char) : Bytes :=
  let lead : Bytes := if chars.head?.any fun c => c == ' ' || isBreak c then "2" else []
  let chomp : Bytes :=
    match chars.reverse with
    | [] => "-"
    | last :: before =>
        if !isBreak last then "-"
        else
          match before with
          | [] => "+"
          | c :: _ => if isBreak c then "+" else []
  lead ++ chomp

/-- A text as a block under an indentation. -/
def block (indent : Nat) (chars : List Char) : Written :=
  let start : Bytes := if chars.head?.any isBreak then [] else "\n"
  ⟨"|" ++ blockMarks chars ++ start ++ indented indent Bytes.ofChar true chars,
    chars.getLast?.any isBreak⟩

/-- A text under an indentation, which is taken for text by every reader. -/
def writeText (indent : Nat) (s : Bytes) : Written :=
  let chars := s.scalars.map Scalar.char
  if s.contains 10 then
    if blockAllowed chars then block indent chars else .onLine (doubleQuoted chars)
  else if !isPlainText s then .onLine (doubleQuoted chars)
  else if plainAllowed chars then .onLine s
  else if singleAllowed chars then .onLine (singleQuoted indent chars)
  else .onLine (doubleQuoted chars)

/-- How many characters of base 64 are written on a line. -/
def binaryWidth : Nat := 70

/-- Bytes under an indentation, in base 64. What does not fit on one line becomes a block. -/
def writeBinary (indent : Nat) (s : Bytes) : Written :=
  let code := Base64.encode s
  if code.length < binaryWidth then .onLine ("!!binary " ++ code)
  else
    let lines : Bytes := (Base64.wrap binaryWidth code).flatMap fun line => line ++ [10]
    let written := block indent (lines.scalars.map Scalar.char)
    ⟨"!!binary " ++ written.text, written.atLineStart⟩

/-- Any bytes under an indentation. -/
def write (indent : Nat) (s : Bytes) : Written :=
  if s.isUtf8 then writeText indent s else writeBinary indent s

end Yaml

end Rulebook

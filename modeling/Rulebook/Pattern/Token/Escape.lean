import Rulebook.Pattern.Token

/-!
# Escapes

A backslash and what follows it, where that stands for one character: a control character with a
letter of its own, a code point in base eight or sixteen, or a sign of ASCII that stands for itself.
-/

namespace Rulebook

namespace Pattern

namespace Token

/-- The digits of `\x{…}` up to the closing brace. `whole` starts at the backslash. -/
def hexBraces (whole : List Scalar) (value digits : Nat) :
    List Scalar → Except Fault (Nat × List Scalar)
  | [] => refuseAll .invalidEscape whole
  | c :: rest =>
      if c.isStray then refuseAll .invalidUtf8 (c :: rest)
      else if c.char == '}' then
        if digits == 0 then refuse .invalidEscape whole rest else .ok (value, rest)
      else
        match hexDigit? c.char with
        | none => refuse .invalidEscape whole rest
        | some d =>
            if CharSet.maxCode < value * 16 + d then refuse .invalidEscape whole rest
            else hexBraces whole (value * 16 + d) (digits + 1) rest

theorem hexBraces_length (whole : List Scalar) (value digits : Nat) (s : List Scalar) {x : Nat}
    {rest : List Scalar} (h : hexBraces whole value digits s = .ok (x, rest)) :
    rest.length < s.length := by
  fun_induction hexBraces whole value digits s <;> grind -linarith [refuse, refuseAll]

/-- What follows `\x`: digits in braces, or two digits. -/
def hexEscape (whole : List Scalar) : List Scalar → Except Fault (Nat × List Scalar)
  | [] => refuseAll .invalidEscape whole
  | c :: rest =>
      if c.isStray then refuseAll .invalidUtf8 (c :: rest)
      else if c.char == '{' then hexBraces whole 0 0 rest
      else
        match rest with
        | [] => refuseAll .invalidEscape whole
        | d :: rest' =>
            if d.isStray then refuseAll .invalidUtf8 (d :: rest')
            else
              match hexDigit? c.char, hexDigit? d.char with
              | some x, some y => .ok (x * 16 + y, rest')
              | _, _ => refuse .invalidEscape whole rest'

theorem hexEscape_length (whole s : List Scalar) {x : Nat} {rest : List Scalar}
    (h : hexEscape whole s = .ok (x, rest)) : rest.length < s.length := by
  revert h
  fun_cases hexEscape whole s <;> grind -linarith [refuse, refuseAll, → hexBraces_length]

/-- Up to `n` more octal digits. -/
def octalDigits : Nat → Nat → List Scalar → Nat × List Scalar
  | n + 1, value, c :: rest =>
      if isOctal c.char then octalDigits n (value * 8 + (c.char.toNat - 48)) rest
      else (value, c :: rest)
  | _, value, rest => (value, rest)

theorem octalDigits_length (n value : Nat) (s : List Scalar) :
    (octalDigits n value s).2.length ≤ s.length := by
  fun_induction octalDigits n value s <;> grind -linarith

/-- The character that the escape after a backslash stands for. -/
def escape (slash : Scalar) : List Scalar → Except Fault (Nat × List Scalar)
  | [] => .error ⟨.trailingBackslash, []⟩
  | c :: rest =>
      let whole := slash :: c :: rest
      if c.isStray then refuseAll .invalidUtf8 (c :: rest)
      else
        match c.char with
        | 'a' => .ok (7, rest)
        | 'f' => .ok (12, rest)
        | 'n' => .ok (10, rest)
        | 'r' => .ok (13, rest)
        | 't' => .ok (9, rest)
        | 'v' => .ok (11, rest)
        | 'x' => hexEscape whole rest
        | '0' => .ok (octalDigits 2 0 rest)
        | ch =>
            if isOctal ch then
              match rest with
              | d :: _ =>
                  if isOctal d.char then .ok (octalDigits 2 (ch.toNat - 48) rest)
                  else refuse .invalidEscape whole rest
              | [] => refuse .invalidEscape whole rest
            else if ch.toNat < 0x80 && !ch.isAlphanum then .ok (ch.toNat, rest)
            else refuse .invalidEscape whole rest

/-- An escape takes at least one character after the backslash. -/
theorem escape_length (slash : Scalar) (s : List Scalar) {x : Nat} {rest : List Scalar}
    (h : escape slash s = .ok (x, rest)) : rest.length < s.length := by
  revert h
  fun_cases escape slash s <;>
    grind -linarith [refuse, refuseAll, → hexEscape_length, octalDigits_length]

end Token

end Pattern

end Rulebook

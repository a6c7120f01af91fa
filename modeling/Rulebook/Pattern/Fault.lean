import Rulebook.Text.Bytes

/-!
# Faults of a pattern

Why a pattern is refused. A fault names what is wrong and the part of the pattern that shows it.
-/

namespace Rulebook

namespace Pattern

/-- What is wrong with a pattern. -/
inductive FaultKind where
  /-- A byte that is not UTF-8. -/
  | invalidUtf8
  /-- A group that is not closed. -/
  | missingParen
  /-- A closing parenthesis without a group. -/
  | unexpectedParen
  /-- A class that is not closed. -/
  | missingBracket
  /-- A backslash with nothing after it. -/
  | trailingBackslash
  /-- An escape that means nothing. -/
  | invalidEscape
  /-- A range that runs backwards, or a class with an unknown name. -/
  | invalidCharRange
  /-- A count that is too large, or a least count above the greatest. -/
  | invalidRepeatSize
  /-- A repetition of a repetition. -/
  | invalidRepeatOp
  /-- A repetition of nothing. -/
  | missingRepeatArgument
  /-- A group whose name is not closed or not a name. -/
  | invalidNamedCapture
  /-- A group that starts with an unknown mark. -/
  | invalidGroup
  /-- Nesting beyond the limit. -/
  | nestingDepth
  /-- An expansion beyond the limit. -/
  | tooLarge
  deriving DecidableEq, Repr

/-- The words for each kind of fault. -/
def FaultKind.words : FaultKind → Bytes
  | invalidUtf8 => "invalid UTF-8"
  | missingParen => "missing closing )"
  | unexpectedParen => "unexpected )"
  | missingBracket => "missing closing ]"
  | trailingBackslash => "trailing backslash at end of expression"
  | invalidEscape => "invalid escape sequence"
  | invalidCharRange => "invalid character class range"
  | invalidRepeatSize => "invalid repeat count"
  | invalidRepeatOp => "invalid nested repetition operator"
  | missingRepeatArgument => "missing argument to repetition operator"
  | invalidNamedCapture => "invalid named capture"
  | invalidGroup => "invalid or unsupported Perl syntax"
  | nestingDepth => "expression nests too deeply"
  | tooLarge => "expression too large"

/-- Why a pattern is refused. -/
structure Fault where
  kind : FaultKind
  /-- The part of the pattern that shows the fault. -/
  text : Bytes
  deriving DecidableEq, Repr

/-- The fault in words. -/
def Fault.message (f : Fault) : Bytes :=
  "error parsing regexp: " ++ f.kind.words ++ ": `" ++ f.text ++ "`"

end Pattern

end Rulebook

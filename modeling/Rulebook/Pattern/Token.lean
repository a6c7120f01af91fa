import Rulebook.Pattern.Expr
import Rulebook.Pattern.Fault
import Rulebook.Pattern.Flags
import Rulebook.Text.Scalar

/-!
# Tokens of a pattern

The pieces that a pattern is cut into, and the faults that a piece can show by itself.
-/

namespace Rulebook

namespace Pattern

/-- A member of a class: a set, or what it leaves out. -/
structure SetItem where
  set : CharSet
  negated : Bool
  deriving DecidableEq, Repr

/-- How often something is repeated. -/
inductive Count where
  | star
  | plus
  | opt
  | times (min : Nat) (max : Option Nat)
  deriving DecidableEq, Repr

/-- A piece of a pattern. -/
inductive Token where
  /-- A character that stands for itself. -/
  | char (code : Nat)
  /-- One character of a class, or one that is not in it. -/
  | set (items : List SetItem) (negated : Bool)
  /-- `.` -/
  | dot
  /-- `^` -/
  | caret
  /-- `$` -/
  | dollar
  /-- A condition with a meaning of its own. -/
  | test (condition : Assertion)
  /-- The start of a group that captures, with its name or the empty name. -/
  | capture (name : Bytes)
  /-- The start of a group that does not capture, with the settings changed inside it. -/
  | enclose (changes : List (Flag × Bool))
  /-- Settings changed from here to the end of the group. -/
  | change (changes : List (Flag × Bool))
  /-- `)` -/
  | close
  /-- `|` -/
  | bar
  /-- A repetition of what stands before it, with its text. -/
  | repeated (count : Count) (marked : Bool) (text : Bytes)
  deriving DecidableEq, Repr

namespace Token

/-- The bytes of `s` that come before its end part `rest`. -/
def before (s rest : List Scalar) : Bytes := Bytes.ofScalars (s.take (s.length - rest.length))

/-- A fault shown by the bytes of `s` that come before `rest`. -/
def refuse {α : Type} (kind : FaultKind) (s rest : List Scalar) : Except Fault α :=
  .error ⟨kind, before s rest⟩

/-- A fault shown by all of `s`. -/
def refuseAll {α : Type} (kind : FaultKind) (s : List Scalar) : Except Fault α :=
  .error ⟨kind, Bytes.ofScalars s⟩

/-- The number a hexadecimal digit stands for. -/
def hexDigit? (c : Char) : Option Nat :=
  if c.isDigit then some (c.toNat - 48)
  else if 'a' ≤ c && c ≤ 'f' then some (c.toNat - 87)
  else if 'A' ≤ c && c ≤ 'F' then some (c.toNat - 55)
  else none

/-- A digit of base eight. -/
def isOctal (c : Char) : Bool := '0' ≤ c && c ≤ '7'

/-- Refuses a text that is not UTF-8 at its first stray byte. -/
def checkUtf8 : List Scalar → Except Fault Unit
  | [] => .ok ()
  | c :: rest => if c.isStray then refuseAll .invalidUtf8 (c :: rest) else checkUtf8 rest

end Token

end Pattern

end Rulebook

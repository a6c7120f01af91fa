import Rulebook.Text.CharSet

/-!
# Expressions

The expression that a pattern denotes: characters, assertions, groups, concatenation, ordered
choice, and greedy or lazy repetition.
-/

namespace Rulebook

namespace Pattern

/-- A condition on a place in a text that takes up no characters. -/
inductive Assertion where
  /-- The start of the text. -/
  | beginText
  /-- The end of the text. -/
  | endText
  /-- The start of a line. -/
  | beginLine
  /-- The end of a line. -/
  | endLine
  /-- A place between a word character and another. -/
  | boundary
  /-- A place that is not a boundary. -/
  | noBoundary
  deriving DecidableEq, Repr

/-- What a pattern denotes. -/
inductive Expr where
  /-- The empty text. -/
  | empty
  /-- One character of a set. -/
  | one (set : CharSet)
  /-- A place that meets a condition. -/
  | test (condition : Assertion)
  /-- A group with its number and its name, which may be empty. -/
  | group (index : Nat) (name : Bytes) (body : Expr)
  /-- One expression after another. -/
  | cat (first second : Expr)
  /-- The first expression or, failing that, the second. -/
  | alt (first second : Expr)
  /-- Any number of times. -/
  | star (greedy : Bool) (body : Expr)
  /-- At least once. -/
  | plus (greedy : Bool) (body : Expr)
  /-- At most once. -/
  | opt (greedy : Bool) (body : Expr)
  /-- At least `min` and at most `max` times. -/
  | times (min : Nat) (max : Option Nat) (greedy : Bool) (body : Expr)
  deriving DecidableEq, Repr

namespace Expr

/-- The expressions of a list one after another. -/
def concat : List Expr → Expr
  | [] => .empty
  | [e] => e
  | e :: rest => .cat e (concat rest)

/-- The first expression of a list that matches. -/
def choice : List Expr → Expr
  | [] => .empty
  | [e] => e
  | e :: rest => .alt e (choice rest)

/-- True if the form of the expression lets it match the empty text. Conditions count as empty,
    whether they hold or not. -/
def nullable : Expr → Bool
  | empty => true
  | one _ => false
  | test _ => true
  | group _ _ e => e.nullable
  | cat a b => a.nullable && b.nullable
  | alt a b => a.nullable || b.nullable
  | star _ _ => true
  | plus _ e => e.nullable
  | opt _ _ => true
  | times min _ _ e => min == 0 || e.nullable

/-- The names of the groups, in the order in which the groups open. -/
def names : Expr → List Bytes
  | empty => []
  | one _ => []
  | test _ => []
  | group _ name e => name :: e.names
  | cat a b => a.names ++ b.names
  | alt a b => a.names ++ b.names
  | star _ e => e.names
  | plus _ e => e.names
  | opt _ e => e.names
  | times _ _ _ e => e.names

/-- True if each count of repetition, multiplied by those around it, stays within the limit. -/
def countsWithin (limit : Nat) : Expr → Bool
  | empty => true
  | one _ => true
  | test _ => true
  | group _ _ e => e.countsWithin limit
  | cat a b => a.countsWithin limit && b.countsWithin limit
  | alt a b => a.countsWithin limit && b.countsWithin limit
  | star _ e => e.countsWithin limit
  | plus _ e => e.countsWithin limit
  | opt _ e => e.countsWithin limit
  | times min max _ e =>
      let count := max.getD min
      if max == some 0 then true
      else if limit < count then false
      else e.countsWithin (if count == 0 then limit else limit / count)

end Expr

end Pattern

end Rulebook

import Rulebook.Pattern.Shape

/-!
# Limits

What a pattern uses up while it is read, and how much of it there may be. Three things are limited:
how many code points a pattern lists, how many steps it takes when every count is written out, and
how many levels it has. Steps are only counted once the pattern has so many nodes that, with all its
counts multiplied, it could exceed the limit.

A node that is set aside is used again for the next one that is needed. The weight that was noted
for it stays with it, until the new node is weighed.
-/

namespace Rulebook

namespace Pattern

/-- How many levels a shape may have. -/
def maxHeight : Nat := 1000

/-- How many steps a shape may take. -/
def maxWeight : Nat := 3355443

/-- How many code points a pattern may list. -/
def maxListed : Nat := 33554432

/-- What has been used up. -/
structure Usage where
  /-- How many code points have been listed. -/
  listed : Nat := 0
  /-- The counts of all repetitions, multiplied. -/
  counts : Nat := 1
  /-- How many nodes have been made. -/
  made : Nat := 0
  /-- The nodes that are set aside, the last one first, each with the weight noted for it. -/
  spare : List (Option Nat) := []
  /-- Whether steps are counted. -/
  weighing : Bool := false
  deriving DecidableEq, Repr

/-- A computation that uses something up. -/
abbrev Metered (α : Type) := StateM Usage α

namespace Usage

/-- Takes a node, and tells the weight noted for it. -/
def take : Metered (Option Nat) := do
  let u ← get
  match u.spare with
  | noted :: spare => do
      set { u with spare := spare }
      pure noted
  | [] => do
      set { u with made := u.made + 1 }
      pure none

/-- Sets a node aside. -/
def putBack (noted : Option Nat) : Metered Unit :=
  modify fun u => { u with spare := noted :: u.spare }

/-- Sets the node of a shape aside. -/
def drop (shape : Shape) : Metered Unit :=
  modify fun u =>
    { u with spare := (if u.weighing then some shape.weight else none) :: u.spare }

/-- Weighs a shape by itself. -/
def weigh (shape : Shape) : Metered Shape := do
  pure (if (← get).weighing then shape.weighed else shape)

/-- Lists code points. -/
def list (n : Nat) : Metered Unit := modify fun u => { u with listed := u.listed + n }

/-- How often a repetition with counts stands for its body, at most. -/
def factor? : Shape → Option Nat
  | .repeated (.times min max) _ _ => some (Nat.max 1 (max.getD min))
  | _ => none

/-- Multiplies the counts by that of a repetition. The product stops at the limit. -/
def count (shape : Shape) : Metered Unit :=
  modify fun u =>
    match factor? shape with
    | some n => { u with counts := if maxWeight / u.counts < n then maxWeight else u.counts * n }
    | none => u

/-- True if steps have to be counted from now on. -/
def mustWeigh (u : Usage) : Bool := !u.weighing && maxWeight / u.counts ≤ u.made

end Usage

end Pattern

end Rulebook

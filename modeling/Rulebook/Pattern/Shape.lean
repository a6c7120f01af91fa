import Rulebook.Pattern.Token
import Rulebook.Text.CaseFold

/-!
# Shapes

How deeply a pattern nests, and how far it expands, is measured on its shape: the pattern with
neighbouring characters joined to strings, nested concatenations and choices flattened, and common
beginnings of alternatives taken out in front of the choice. A shape matches what the pattern
matches.

A shape is weighed when it is put together. What it weighed then is noted, and counts from then on,
even if characters have been joined to it, or taken away from it, since.
-/

namespace Rulebook

namespace Pattern

/-- The outline of a pattern. -/
inductive Shape where
  /-- The empty text. -/
  | empty
  /-- A string, with the settings in force where it begins and the weight noted for it. -/
  | literal (codes : List Nat) (flags : Flags) (noted : Option Nat)
  /-- One character of a set. -/
  | set (members : CharSet)
  /-- Any character but the line break. -/
  | notBreak
  /-- Any character. -/
  | any
  /-- A place that meets a condition. -/
  | test (condition : Assertion)
  /-- A group that captures, with its number. -/
  | captured (index : Nat) (body : Shape)
  /-- A repetition. -/
  | repeated (count : Count) (greedy : Bool) (body : Shape)
  /-- Several parts one after another. -/
  | cat (parts : List Shape) (noted : Option Nat)
  /-- A choice between several parts. -/
  | alt (parts : List Shape) (noted : Option Nat)

namespace Shape

/-! ### Measures -/

mutual

/-- How many levels the shape has. -/
def height : Shape → Nat
  | empty => 1
  | literal _ _ _ => 1
  | set _ => 1
  | notBreak => 1
  | any => 1
  | test _ => 1
  | captured _ body => 1 + body.height
  | repeated _ _ body => 1 + body.height
  | cat parts _ => 1 + highest parts
  | alt parts _ => 1 + highest parts

/-- The height of the highest of several shapes. -/
def highest : List Shape → Nat
  | [] => 0
  | part :: rest => max part.height (highest rest)

end

/-- The weight of a repetition of something with the weight `w`. -/
def repeatedWeight (w : Nat) : Count → Nat
  | .star => 2 + w
  | .plus => 1 + w
  | .opt => 1 + w
  | .times 0 none => 2 + w
  | .times min none => 1 + min * w
  | .times min (some max) => max * w + (max - min)

mutual

/-- How many steps the shape takes when every repetition with counts is written out, as far as no
    weight has been noted. -/
def weight : Shape → Nat
  | empty => 1
  | literal codes _ noted => noted.getD (max 1 codes.length)
  | set _ => 1
  | notBreak => 1
  | any => 1
  | test _ => 1
  | captured _ body => 2 + body.weight
  | repeated count _ body => max 1 (repeatedWeight body.weight count)
  | cat parts noted => noted.getD (max 1 (total parts))
  | alt parts noted => noted.getD (max 1 (total parts + (parts.length - 1)))

/-- The weight of several shapes together. -/
def total : List Shape → Nat
  | [] => 0
  | part :: rest => part.weight + total rest

end

/-- The weight that was noted for a string. -/
def noted : Shape → Option Nat
  | literal _ _ noted => noted
  | _ => none

/-- A string with another weight noted for it. -/
def withNote (noted : Option Nat) : Shape → Shape
  | literal codes flags _ => literal codes flags noted
  | other => other

/-- A shape that has just been weighed. -/
def weighed : Shape → Shape
  | literal codes flags _ => literal codes flags (some (max 1 codes.length))
  | cat parts _ => cat parts none
  | alt parts _ => alt parts none
  | other => other

mutual

/-- A shape all strings of which have just been weighed. -/
def allWeighed : Shape → Shape
  | captured index body => captured index body.allWeighed
  | repeated count greedy body => repeated count greedy body.allWeighed
  | cat parts _ => cat (eachWeighed parts) none
  | alt parts _ => alt (eachWeighed parts) none
  | literal codes flags _ => literal codes flags (some (max 1 codes.length))
  | other => other

/-- Shapes all strings of which have just been weighed. -/
def eachWeighed : List Shape → List Shape
  | [] => []
  | part :: rest => part.allWeighed :: eachWeighed rest

end

/-- How many code points a shape lists by itself: the characters of a string, or the bounds of the
    ranges of a set. -/
def listed : Shape → Nat
  | literal codes _ _ => codes.length
  | set members => 2 * members.ranges.length
  | _ => 0

/-! ### One character -/

/-- The characters that a shape of one character can be. -/
def oneOf? : Shape → Option CharSet
  | literal [code] flags _ => some (CaseFold.alike flags.fold code)
  | set members => some members
  | notBreak => some .notBreak
  | any => some .all
  | _ => none

/-- The shape of a character. -/
def ofChar (flags : Flags) (code : Nat) : Shape :=
  literal [if flags.fold then (CaseFold.orbit code).headD code else code] flags none

/-- The shape of the dot. -/
def ofDot (flags : Flags) : Shape := if flags.dotAll then any else notBreak

/-- The code point that a set of one character stands for, and whether it stands for both cases of
    it. -/
def singleCode? (members : CharSet) : Option (Nat × Bool) :=
  match members.ranges with
  | [(a, b)] =>
      if a == b then some (a, false)
      else if b == a + 1 && CaseFold.orbit a == [a, b] then some (a, true)
      else none
  | [(a, b), (c, d)] =>
      if a == b && c == d && CaseFold.orbit a == [a, c] then some (a, true) else none
  | _ => none

/-- A set of one character, or of one in two cases, as a string. -/
def asString (flags : Flags) : Shape → Shape
  | set members =>
      match singleCode? members with
      | some (code, fold) => literal [code] { flags with fold := fold } none
      | none => set members
  | other => other

/-- A set of all characters, or of all but the line break, as what it is. -/
def clean : Shape → Shape
  | set members =>
      if members == .all then any
      else if members == .notBreak then notBreak
      else set members
  | other => other

/-- One character that is of one of two shapes of one character, whose characters are `s` and
    `t`. -/
def merge (a b : Shape) (s t : CharSet) : Shape :=
  match a, b with
  | any, _ => any
  | _, any => any
  | notBreak, _ => if t.contains 10 then any else notBreak
  | _, notBreak => if s.contains 10 then any else notBreak
  | literal x f _, literal y g _ => if x == y && f == g then a else set (s.union t)
  | _, _ => set (s.union t)

/-! ### Strings -/

/-- True of two strings that can stand as one: both with, or both without regard to case. -/
def joins : Shape → Shape → Bool
  | literal _ f _, literal _ g _ => f.fold == g.fold
  | _, _ => false

/-- Joins strings that stand side by side. -/
def joinStrings (parts : List Shape) : List Shape :=
  parts.foldr (fun part rest =>
    match part, rest with
    | literal a f noted, literal b g _ :: rest' =>
        if f.fold == g.fold then literal (a ++ b) f noted :: rest' else part :: rest
    | _, _ => part :: rest) []

end Shape

end Pattern

end Rulebook

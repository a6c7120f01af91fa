import Rulebook.Text.Bytes

/-!
# Sets of characters

A set of characters is a list of ranges of code points. `CharSet.ofRanges` puts any list of ranges
into normal form: sorted, with a gap between any two ranges. The tables of character properties are
written as text, one range after another in hexadecimal, and read by `CharSet.ofText`.
-/

namespace Rulebook

/-- A set of code points, as the ranges from a first to a last code point that make it up. -/
structure CharSet where
  ranges : List (Nat × Nat)
  deriving DecidableEq, Repr

namespace CharSet

/-- The greatest code point. -/
def maxCode : Nat := 0x10FFFF

/-- Whether a code point is in the set. -/
def contains (s : CharSet) (code : Nat) : Bool :=
  s.ranges.any fun (first, last) => first ≤ code && code ≤ last

/-- Joins the ranges of a sorted list that touch or overlap, starting from the range
    `first` to `last`. -/
def absorb (first last : Nat) : List (Nat × Nat) → List (Nat × Nat)
  | [] => [(first, last)]
  | (a, b) :: rest =>
      if a ≤ last + 1 then absorb first (max last b) rest
      else (first, last) :: absorb a b rest

/-- Puts a range into a list that is sorted by first code points. -/
def place (range : Nat × Nat) : List (Nat × Nat) → List (Nat × Nat)
  | [] => [range]
  | next :: rest => if next.1 < range.1 then next :: place range rest else range :: next :: rest

/-- The normal form of a list of ranges. -/
def ofRanges (ranges : List (Nat × Nat)) : CharSet :=
  match ranges.foldr place [] with
  | [] => ⟨[]⟩
  | (a, b) :: rest => ⟨absorb a b rest⟩

/-- The set of one code point. -/
def single (code : Nat) : CharSet := ⟨[(code, code)]⟩

/-- The empty set. -/
def empty : CharSet := ⟨[]⟩

/-- Every code point. -/
def all : CharSet := ⟨[(0, maxCode)]⟩

/-- Every code point but the line break. -/
def notBreak : CharSet := ⟨[(0, 9), (11, maxCode)]⟩

/-- What two sets have between them. -/
def union (s t : CharSet) : CharSet := ofRanges (s.ranges ++ t.ranges)

/-- What all the sets of a list have between them. -/
def unionAll (sets : List CharSet) : CharSet := ofRanges (sets.flatMap ranges)

/-- The ranges that a sorted list leaves out, from the code point `start` on. -/
def gaps (start : Nat) : List (Nat × Nat) → List (Nat × Nat)
  | [] => if start ≤ maxCode then [(start, maxCode)] else []
  | (a, b) :: rest => if start < a then (start, a - 1) :: gaps (b + 1) rest else gaps (b + 1) rest

/-- Every code point that is not in a set in normal form. -/
def complement (s : CharSet) : CharSet := ⟨gaps 0 s.ranges⟩

/-- True if no code point is in both sets. -/
def disjoint (s t : CharSet) : Bool :=
  s.ranges.all fun (a, b) => t.ranges.all fun (c, d) => b < c || d < a

/-- A number written in base sixteen. -/
def readHex (s : String) : Nat :=
  s.toList.foldl (fun n c =>
    n * 16 + (if c.isDigit then c.toNat - 48 else c.toNat - 87)) 0

/-- The items of a table, which stand between spaces and line breaks. -/
def items (table : String) : List String :=
  ((table.splitOn "\n").flatMap (·.splitOn " ")).filter (!·.isEmpty)

/-- Reads the ranges of a table. -/
def ofText (table : String) : CharSet :=
  ⟨(items table).map fun part =>
    match part.splitOn "-" with
    | [a, b] => (readHex a, readHex b)
    | _ => (readHex part, readHex part)⟩

end CharSet

end Rulebook

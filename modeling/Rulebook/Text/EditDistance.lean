import Rulebook.Text.Scalar

/-!
# Edit distance

How many characters must be inserted, removed or replaced to turn one text into another. The
distances from one text to all beginnings of another are computed row by row.
-/

namespace Rulebook

namespace EditDistance

/-- The rest of a row, given the row above from the same column on and the entry to the left. Above
    each entry stands the one of the row above; `corner` is the one to the left of that. -/
def rowFrom (c : Char) : List Char → List Nat → Nat → Nat → List Nat
  | d :: ds, above :: row, corner, left =>
      let entry := min (min (above + 1) (left + 1)) (if c == d then corner else corner + 1)
      entry :: rowFrom c ds row above entry
  | _, _, _, _ => []

/-- The row for one more character. -/
def nextRow (target : List Char) (row : List Nat) (c : Char) : List Nat :=
  match row with
  | [] => []
  | corner :: rest => (corner + 1) :: rowFrom c target rest corner (corner + 1)

/-- The distance between two lists of characters. -/
def chars (a b : List Char) : Nat :=
  (a.foldl (nextRow b) (List.range (b.length + 1))).getLastD 0

end EditDistance

namespace Bytes

/-- The edit distance between two texts, counted in characters. -/
def distance (a b : Bytes) : Nat :=
  EditDistance.chars (a.scalars.map Scalar.char) (b.scalars.map Scalar.char)

end Bytes

end Rulebook

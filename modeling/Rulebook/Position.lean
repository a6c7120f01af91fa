import Rulebook.Text.Quoted

/-!
# Positions

Where something stands in a source: the name of the file, the offset in bytes, and line and column,
both counted from one.
-/

namespace Rulebook

/-- A place in a source. -/
structure Position where
  filename : Bytes
  offset : Int
  line : Int
  column : Int
  deriving DecidableEq, Repr

namespace Position

/-- The start of a source. -/
def start (filename : Bytes) : Position := ⟨filename, 0, 1, 1⟩

/-- Line and column, after the name of the file if it has one. -/
def display (p : Position) : Bytes :=
  let place := Bytes.integer p.line ++ ":" ++ Bytes.integer p.column
  if p.filename.isEmpty then place else p.filename ++ ":" ++ place

/-- All that is known about a position. -/
def details (p : Position) : Bytes :=
  "Position\x7bFilename: " ++ p.filename.quote ++ ", Offset: " ++ Bytes.integer p.offset ++
    ", Line: " ++ Bytes.integer p.line ++ ", Column: " ++ Bytes.integer p.column ++ "\x7d"

/-- What stands before a message: the parts of the position that are known. -/
def label (p : Position) : Bytes :=
  let file : Bytes := if p.filename.isEmpty then [] else p.filename ++ ":"
  let place : Bytes :=
    if p.line == 0 && p.column == 0 then []
    else Bytes.integer p.line ++ ":" ++ Bytes.integer p.column ++ ":"
  file ++ place

/-- A message with its position. -/
def describe (p : Position) (message : Bytes) : Bytes :=
  if p.label.isEmpty then message else p.label ++ " " ++ message

end Position

end Rulebook

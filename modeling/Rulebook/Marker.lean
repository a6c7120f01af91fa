import Rulebook.Position
import Rulebook.Text.Blank

/-!
# Markers

A marker moves forward over a source and knows its position. What lies between two places is a gap;
`Marker.skip` crosses a gap and reports the lines of it that are not blank.
-/

namespace Rulebook

namespace Bytes

/-- A text cut after each line break. -/
def cutLines : Bytes → List Bytes
  | [] => []
  | b :: rest =>
      if b == 10 then [b] :: cutLines rest
      else
        match cutLines rest with
        | [] => [[b]]
        | line :: lines => (b :: line) :: lines

/-- What stands after the last line break. -/
def lastLine (s : Bytes) : Bytes := (s.reverse.takeWhile (· != 10)).reverse

end Bytes

namespace Position

/-- The position after some text. A column counts characters. -/
def advance (p : Position) (chunk : Bytes) : Position :=
  let breaks := chunk.count 10
  { p with
    offset := p.offset + chunk.length
    line := p.line + breaks
    column := (if breaks == 0 then p.column else 1) + chunk.lastLine.scalars.length }

end Position

/-- Why a part of a text cannot be had. -/
inductive RangeFault where
  /-- A marker cannot move to a place that lies before it. -/
  | backwards
  /-- A marker cannot move to a place that does not lie in the source. -/
  | outside
  /-- A text that is too short for its quotes has nothing between them. -/
  | quotes
  deriving DecidableEq, Repr

/-- The fault in words, if it has any. -/
def RangeFault.words? : RangeFault → Option Bytes
  | backwards => some "lexer: scanner cannot seek backwards"
  | outside => none
  | quotes => none

/-- A line of a gap without the blanks around it. -/
structure Unmatched where
  position : Position
  text : Bytes
  deriving DecidableEq, Repr

/-- A position in a source, and what follows it. -/
structure Marker where
  position : Position
  rest : Bytes

namespace Marker

/-- A marker at the start of a source. -/
def start (filename source : Bytes) : Marker := ⟨.start filename, source⟩

/-- Moves over the next `count` bytes. -/
def forward (m : Marker) (count : Nat) : Marker :=
  ⟨m.position.advance (m.rest.take count), m.rest.drop count⟩

/-- How many bytes lie between the marker and an offset. -/
def distance (m : Marker) (offset : Int) : Except RangeFault Nat :=
  if offset < m.position.offset then .error .backwards
  else if offset - m.position.offset ≤ m.rest.length then .ok (offset - m.position.offset).toNat
  else .error .outside

/-- Moves to an offset. -/
def seek (m : Marker) (offset : Int) : Except RangeFault Marker :=
  match m.distance offset with
  | .error fault => .error fault
  | .ok count => .ok (m.forward count)

/-- The position of an offset, without moving there. -/
def locate (m : Marker) (offset : Int) : Except RangeFault Position :=
  match m.seek offset with
  | .error fault => .error fault
  | .ok m' => .ok m'.position

/-- The line without the blanks around it and where that starts, unless it is blank. -/
def unmatched? (p : Position) (line : Bytes) : Option Unmatched :=
  let chars := line.scalars
  let body := Bytes.dropBlank chars
  if body.isEmpty then none
  else
    some
      { position := p.advance (Bytes.ofScalars (chars.take (chars.length - body.length)))
        text := Bytes.ofScalars (Bytes.dropBlankEnd body) }

/-- The lines that are not blank, the first of which starts at a position. -/
def unmatchedLines (p : Position) : List Bytes → List Unmatched
  | [] => []
  | line :: rest =>
      match unmatched? p line with
      | none => unmatchedLines (p.advance line) rest
      | some u => u :: unmatchedLines (p.advance line) rest

/-- Moves to an offset and reports the lines on the way that are not blank. To skip backwards is to
    leave the source. -/
def skip (m : Marker) (offset : Int) : Except RangeFault (List Unmatched × Marker) :=
  match m.distance offset with
  | .error _ => .error .outside
  | .ok count =>
      .ok (unmatchedLines m.position (Bytes.cutLines (m.rest.take count)), m.forward count)

end Marker

end Rulebook

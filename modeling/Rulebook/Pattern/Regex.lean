import Rulebook.Error
import Rulebook.Pattern.Lead
import Rulebook.Pattern.Reader

/-!
# Compiled patterns

A pattern that was read, together with the program that searches for it. No two groups of a compiled
pattern have the same name.
-/

namespace Rulebook

namespace Pattern

/-- A pattern that can be searched for. -/
structure Regex where
  /-- The pattern as it was written. -/
  source : Bytes
  /-- The names of the groups in the order of their numbers. A group without a name has the empty
      name. -/
  names : List Bytes
  /-- What finds the pattern in a text. -/
  program : Program
  /-- What finds it instead, if it asks for a surrogate at the start of the text. -/
  lead : Option Lead

/-- The first name of a list that has stood in it before. -/
def repeated? : List Bytes → List Bytes → Option Bytes
  | _, [] => none
  | seen, name :: rest =>
      if !name.isEmpty && seen.contains name then some name else repeated? (name :: seen) rest

namespace Regex

/-- Reads a pattern. It is refused if it has a fault or if two of its groups share a name. -/
def ofPattern (source : Bytes) : Except Error Regex :=
  match Piece.parse source with
  | .error f => .error (.rejected source (.fault f))
  | .ok ⟨e, shape⟩ =>
      match repeated? [] e.names with
      | some name => .error (.rejected source (.duplicateCapture name))
      | none => .ok ⟨source, e.names, .ofExpr e, Lead.ofShape? shape⟩

/-- The number of the first group with a name. Groups are counted from one. -/
def groupNumber? (r : Regex) (name : Bytes) : Option Nat :=
  (r.names.findIdx? (· == name)).map (· + 1)

/-- The leftmost match in a text. -/
def find? (r : Regex) (text : Bytes) : Option Program.Found :=
  match r.lead with
  | some lead => lead.find? text
  | none => r.program.find? (.start text)

/-- All matches in a text that do not overlap. -/
def findAll (r : Regex) (text : Bytes) : List Program.Found :=
  match r.lead with
  | some lead => (lead.find? text).toList
  | none => r.program.findAll none (.start text)

/-- True if the pattern is found in a text. -/
def occursIn (r : Regex) (text : Bytes) : Bool := (r.find? text).isSome

end Regex

namespace Program

namespace Found

/-- Where the match ends. -/
def finish (f : Found) : Nat := f.stop.offset

/-- Where a group lies, if it took part in the match. What was noted last counts. -/
def group? (f : Found) (number : Nat) : Option (Nat × Nat) :=
  match f.marks.lookup (Expr.slot number), f.marks.lookup (Expr.slot number + 1) with
  | some start, some stop => some (start, stop)
  | _, _ => none

end Found

end Program

end Pattern

end Rulebook

import Rulebook.Text.Quoted

/-!
# Parse trees

A tree is a matched span of a text and the named parts found within it.
-/

namespace Rulebook

/-- A matched span and the named spans within it. -/
inductive Tree where
  /-- A span with the name of the entry that matched it, which is empty at the top, its text, and
      the offset of the text. -/
  | node (name text : Bytes) (offset : Int) (children : List Tree)

namespace Tree

/-- The name of the entry that matched. -/
def name : Tree → Bytes
  | node name _ _ _ => name

/-- The text that was matched. -/
def text : Tree → Bytes
  | node _ text _ _ => text

/-- Where the text starts. -/
def offset : Tree → Int
  | node _ _ offset _ => offset

/-- The named parts, in order. -/
def children : Tree → List Tree
  | node _ _ _ children => children

/-- The offset just past the text. -/
def finish (t : Tree) : Int := t.offset + t.text.length

/-- The same tree under a name. -/
def rename (name : Bytes) : Tree → Tree
  | node _ text offset children => node name text offset children

/-- The first part with a name. -/
def child? (t : Tree) (name : Bytes) : Option Tree := t.children.find? (·.name == name)

/-- All parts with a name. -/
def all (t : Tree) (name : Bytes) : List Tree := t.children.filter (·.name == name)

/-! ## Printing -/

/-- The line for a node: its name, offset and text, indented by its depth. -/
def line (depth : Nat) (name text : Bytes) (offset : Int) : Bytes :=
  let label : Bytes := if name.isEmpty then "<match>" else name
  Bytes.times depth "  " ++ label ++ "@" ++ Bytes.integer offset ++ " " ++ text.quote ++ "\n"

mutual

/-- The lines of a tree, each node before its parts. -/
def lines (depth : Nat) : Tree → List Bytes
  | node name text offset children =>
      line depth name text offset :: linesOf (depth + 1) children

/-- The lines of trees one after another. -/
def linesOf (depth : Nat) : List Tree → List Bytes
  | [] => []
  | t :: rest => t.lines depth ++ linesOf depth rest

end

/-- A tree in writing, one node a line. -/
def print (t : Tree) : Bytes := (t.lines 0).flatten

/-- A writer that takes a number of writes and then fails, or never fails. It notes whatever it is
    handed, whether it takes it or not. -/
structure Sink where
  /-- How many writes it takes, if it ever fails. -/
  room : Option Nat
  /-- What it was handed, in order. -/
  handed : List Bytes

namespace Sink

/-- The writes that it took. -/
def taken (sink : Sink) : List Bytes :=
  match sink.room with
  | none => sink.handed
  | some room => sink.handed.take room

/-- What it has written. -/
def written (sink : Sink) : Bytes := sink.taken.flatten

/-- Hands it a text, and tells whether it took the text. -/
def put (sink : Sink) (text : Bytes) : Sink × Bool :=
  (⟨sink.room, sink.handed ++ [text]⟩, sink.room.all (sink.handed.length < ·))

end Sink

mutual

/-- Writes a tree line by line, up to the first write that fails, and tells whether none did. -/
def write (depth : Nat) : Tree → Sink → Sink × Bool
  | node name text offset children, sink =>
      match sink.put (line depth name text offset) with
      | (sink', true) => writeAll (depth + 1) children sink'
      | (sink', false) => (sink', false)

/-- Writes trees one after another. -/
def writeAll (depth : Nat) : List Tree → Sink → Sink × Bool
  | [], sink => (sink, true)
  | t :: rest, sink =>
      match t.write depth sink with
      | (sink', true) => writeAll depth rest sink'
      | (sink', false) => (sink', false)

end

end Tree

end Rulebook

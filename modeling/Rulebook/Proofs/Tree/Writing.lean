import Rulebook.Tree

/-!
# Writing trees

A tree is written as one line for each of its nodes, each node before its parts. To a sink that
fails, these lines are handed over up to the first that it refuses, and that it failed is told
however deep the node of that line lies (`Tree.write_stops`).
-/

namespace Rulebook

namespace Tree

/-! ### Nodes in order -/

/-- A node without its parts: how deep it lies, its name, its text and where the text starts. -/
structure Row where
  depth : Nat
  name : Bytes
  text : Bytes
  offset : Int

/-- The line for a node. -/
def Row.line (row : Row) : Bytes := Tree.line row.depth row.name row.text row.offset

mutual

/-- The nodes of a tree, each before its parts. -/
def rows (depth : Nat) : Tree → List Row
  | node name text offset children => ⟨depth, name, text, offset⟩ :: rowsOf (depth + 1) children

/-- The nodes of trees one after another. -/
def rowsOf (depth : Nat) : List Tree → List Row
  | [] => []
  | t :: rest => t.rows depth ++ rowsOf depth rest

end

mutual

/-- The number of nodes of a tree. -/
def size : Tree → Nat
  | node _ _ _ children => sizes children + 1

/-- The number of nodes of some trees. -/
def sizes : List Tree → Nat
  | [] => 0
  | t :: rest => t.size + sizes rest

end

mutual

theorem length_rows : ∀ (t : Tree) (depth : Nat), (t.rows depth).length = t.size
  | node _ _ _ children, depth => by
    rw [rows, List.length_cons, length_rowsOf children (depth + 1), size]

theorem length_rowsOf : ∀ (ts : List Tree) (depth : Nat), (rowsOf depth ts).length = sizes ts
  | [], _ => rfl
  | t :: rest, depth => by
    rw [rowsOf, List.length_append, length_rows t depth, length_rowsOf rest depth, sizes]

end

mutual

/-- The lines of a tree are those of its nodes. -/
theorem lines_eq : ∀ (t : Tree) (depth : Nat), t.lines depth = (t.rows depth).map Row.line
  | node _ _ _ children, depth => by
    rw [lines, rows, List.map_cons, linesOf_eq children (depth + 1)]
    rfl

theorem linesOf_eq : ∀ (ts : List Tree) (depth : Nat),
    linesOf depth ts = (rowsOf depth ts).map Row.line
  | [], _ => rfl
  | t :: rest, depth => by
    rw [linesOf, rowsOf, List.map_append, lines_eq t depth, linesOf_eq rest depth]

end

/-! ### Handing lines over -/

/-- Hands a sink texts one after another, up to the first that it refuses. -/
def Sink.putAll (sink : Sink) : List Bytes → Sink × Bool
  | [] => (sink, true)
  | text :: rest =>
      match sink.put text with
      | (sink', true) => sink'.putAll rest
      | (sink', false) => (sink', false)

theorem Sink.putAll_append (sink : Sink) (texts more : List Bytes) :
    sink.putAll (texts ++ more) =
      match sink.putAll texts with
      | (sink', true) => sink'.putAll more
      | (sink', false) => (sink', false) := by
  induction texts generalizing sink with
  | nil => rfl
  | cons text texts ih =>
    rw [List.cons_append, putAll, putAll]
    rcases sink.put text with ⟨sink', _ | _⟩
    · rfl
    · exact ih sink'

mutual

/-- To write a tree is to hand over its lines, however it is nested. -/
theorem write_eq : ∀ (t : Tree) (depth : Nat) (sink : Sink),
    t.write depth sink = sink.putAll (t.lines depth)
  | node name text offset children, depth, sink => by
    rw [write, lines, Sink.putAll]
    rcases sink.put (line depth name text offset) with ⟨sink', _ | _⟩
    · rfl
    · exact writeAll_eq children (depth + 1) sink'

theorem writeAll_eq : ∀ (ts : List Tree) (depth : Nat) (sink : Sink),
    writeAll depth ts sink = sink.putAll (linesOf depth ts)
  | [], _, _ => rfl
  | t :: rest, depth, sink => by
    rw [writeAll, linesOf, Sink.putAll_append, write_eq t depth sink]
    rcases sink.putAll (t.lines depth) with ⟨sink', _ | _⟩
    · rfl
    · exact writeAll_eq rest depth sink'

end

/-- A sink without a limit takes everything. -/
theorem Sink.putAll_unlimited (handed texts : List Bytes) :
    putAll ⟨none, handed⟩ texts = (⟨none, handed ++ texts⟩, true) := by
  induction texts generalizing handed with
  | nil => rw [putAll, List.append_nil]
  | cons text texts ih =>
    have took : put ⟨none, handed⟩ text = (⟨none, handed ++ [text]⟩, true) := rfl
    rw [putAll, took]
    exact (ih _).trans (by rw [List.append_assoc]; rfl)

/-- A sink that has not failed yet is handed one text more than it has room for, if there are that
    many. -/
theorem Sink.putAll_limited {room : Nat} {handed : List Bytes} (fits : handed.length ≤ room)
    (texts : List Bytes) :
    putAll ⟨some room, handed⟩ texts =
      (⟨some room, (handed ++ texts).take (room + 1)⟩,
        decide (handed.length + texts.length ≤ room)) := by
  induction texts generalizing handed with
  | nil =>
    rw [putAll, List.append_nil, List.take_of_length_le (Nat.le_succ_of_le fits)]
    simpa using fits
  | cons text texts ih =>
    have length : (handed ++ [text]).length = handed.length + 1 := by
      rw [List.length_append, List.length_singleton]
    have shape : handed ++ text :: texts = (handed ++ [text]) ++ texts := by
      rw [List.append_assoc]
      rfl
    by_cases more : handed.length < room
    · have took : put ⟨some room, handed⟩ text = (⟨some room, handed ++ [text]⟩, true) := by
        simp [put, more]
      rw [putAll, took, shape]
      refine (ih (by omega)).trans ?_
      rw [length, List.length_cons, Nat.add_right_comm, Nat.add_assoc]
    · have refused : put ⟨some room, handed⟩ text = (⟨some room, handed ++ [text]⟩, false) := by
        simp [put, more]
      have whole : (handed ++ [text]).length = room + 1 := by omega
      have larger : ¬ handed.length + (text :: texts).length ≤ room := by
        rw [List.length_cons]
        omega
      rw [putAll, refused, shape, List.take_left' whole, decide_eq_false larger]

/-! ### Sinks that fail -/

/-- A sink that fails after `n` writes has then taken the first `n` of the lines that a sink without
    a limit takes, which are those of the nodes in order. After the line that it refuses it is handed
    no other. That it failed is told if and only if the tree has more than `n` nodes. -/
theorem write_stops (t : Tree) (n : Nat) :
    t.write 0 ⟨none, []⟩ = (⟨none, (t.rows 0).map Row.line⟩, true) ∧
      (t.write 0 ⟨some n, []⟩).1.taken = (t.write 0 ⟨none, []⟩).1.taken.take n ∧
      (t.write 0 ⟨some n, []⟩).1.handed = (t.write 0 ⟨none, []⟩).1.handed.take (n + 1) ∧
      ((t.write 0 ⟨some n, []⟩).2 = false ↔ n < t.size) := by
  have whole : t.write 0 ⟨none, []⟩ = (⟨none, (t.rows 0).map Row.line⟩, true) := by
    rw [write_eq, Sink.putAll_unlimited, lines_eq]
    rfl
  have part : t.write 0 ⟨some n, []⟩ =
      (⟨some n, ((t.rows 0).map Row.line).take (n + 1)⟩, decide (t.size ≤ n)) := by
    rw [write_eq, Sink.putAll_limited (Nat.zero_le n), lines_eq, List.length_map, length_rows]
    simp
  refine ⟨whole, ?_, ?_, ?_⟩
  · rw [whole, part]
    simp only [Sink.taken]
    rw [List.take_take, Nat.min_eq_left (Nat.le_succ n)]
  · rw [whole, part]
  · rw [part, decide_eq_false_iff_not, Nat.not_le]

/-- A tree in writing is what a sink without a limit has written of it. -/
theorem print_eq (t : Tree) : t.print = (t.write 0 ⟨none, []⟩).1.written := by
  rw [write_eq, Sink.putAll_unlimited]
  rfl

end Tree

end Rulebook

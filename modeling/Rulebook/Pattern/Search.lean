import Std.Data.HashSet
import Rulebook.Pattern.Program
import Rulebook.Text.Scalar

/-!
# Searching

`Program.run` takes the steps of a program at a place in a text, trying choices in the order of
preference and going back where one fails. A choice that has been met before at the same place is
not tried again: it would fail again, or it is being tried now and leads nowhere new. So a run ends,
and an empty round of a loop is never repeated.

`Program.find?` finds the leftmost match, and `Program.findAll` all matches that do not overlap.
-/

namespace Rulebook

namespace Pattern

/-- A place in a text. -/
structure Cursor where
  /-- The character before the place. -/
  before : Option Char
  /-- How many bytes are before the place. -/
  offset : Nat
  /-- The characters after the place. -/
  rest : List Scalar

namespace Cursor

/-- The start of a text. -/
def start (text : Bytes) : Cursor := ⟨none, 0, text.scalars⟩

/-- The place after a character. -/
def past (c : Cursor) (s : Scalar) (rest : List Scalar) : Cursor :=
  ⟨some s.char, c.offset + s.width, rest⟩

/-- The character after the place. -/
def after (c : Cursor) : Option Char := c.rest.head?.map Scalar.char

/-- True of a letter, digit or underscore of ASCII. -/
def isWord : Option Char → Bool
  | some c => Scalar.isWordChar c
  | none => false

/-- Whether a condition holds at a place. -/
def holds (c : Cursor) : Assertion → Bool
  | .beginText => c.before.isNone
  | .endText => c.rest.isEmpty
  | .beginLine => c.before.isNone || c.before == some '\n'
  | .endLine => c.rest.isEmpty || c.after == some '\n'
  | .boundary => isWord c.before != isWord c.after
  | .noBoundary => isWord c.before == isWord c.after

end Cursor

/-- A way through a program: the steps that are left, the place, and the offsets noted so far, the
    last first. -/
structure Thread where
  steps : List Step
  place : Cursor
  marks : List (Nat × Nat)

namespace Thread

/-- How much work a list of threads is at most before the next choice. -/
def load : List Thread → Nat
  | [] => 0
  | t :: rest => t.steps.length + 1 + load rest

end Thread

/-- The choices that have been met, each with the offset where it was. -/
abbrev Met := Std.HashSet (Nat × Nat)

namespace Program

/-- Follows the threads in order until one comes to its end, and tells it together with the choices
    met. There are never more than `bound` choices to meet. -/
def run (bound : Nat) (met : Met) (threads : List Thread) : Option Thread × Met :=
  match threads with
  | [] => (none, met)
  | ⟨[], place, marks⟩ :: _ => (some ⟨[], place, marks⟩, met)
  | ⟨.one set :: steps, place, marks⟩ :: others =>
      match place.rest with
      | [] => run bound met others
      | s :: rest =>
          if set.contains s.code then run bound met (⟨steps, place.past s rest, marks⟩ :: others)
          else run bound met others
  | ⟨.test condition :: steps, place, marks⟩ :: others =>
      if place.holds condition then run bound met (⟨steps, place, marks⟩ :: others)
      else run bound met others
  | ⟨.mark slot :: steps, place, marks⟩ :: others =>
      run bound met (⟨steps, place, (slot, place.offset) :: marks⟩ :: others)
  | ⟨.fork label first second :: steps, place, marks⟩ :: others =>
      if (label, place.offset) ∈ met ∨ bound ≤ met.size then run bound met others
      else
        run bound (met.insert (label, place.offset))
          (⟨first ++ steps, place, marks⟩ :: ⟨second ++ steps, place, marks⟩ :: others)
  | ⟨.loop label greedy body :: steps, place, marks⟩ :: others =>
      if (label, place.offset) ∈ met ∨ bound ≤ met.size then run bound met others
      else
        let again : Thread := ⟨body ++ .loop label greedy body :: steps, place, marks⟩
        let leave : Thread := ⟨steps, place, marks⟩
        run bound (met.insert (label, place.offset))
          (if greedy then again :: leave :: others else leave :: again :: others)
termination_by (bound - met.size, Thread.load threads)
decreasing_by
  all_goals simp_wf
  all_goals first
    | (apply Prod.Lex.right; simp [Thread.load])
    | (apply Prod.Lex.left; rename_i h; simp only [not_or, Nat.not_le] at h
       rw [Std.HashSet.size_insert]; simp [h.1]; omega)

/-- A match: where it starts, the place where it ends, and the offsets noted on the way. -/
structure Found where
  start : Nat
  stop : Cursor
  marks : List (Nat × Nat)

/-- The leftmost match that starts at the place or after it. -/
def findFrom (p : Program) (bound : Nat) (met : Met) (before : Option Char) (offset : Nat)
    (rest : List Scalar) : Option Found :=
  match run bound met [⟨p.steps, ⟨before, offset, rest⟩, []⟩] with
  | (some t, _) => some ⟨offset, t.place, t.marks⟩
  | (none, met') =>
      match rest with
      | [] => none
      | s :: rest' => findFrom p bound met' (some s.char) (offset + s.width) rest'
termination_by structural rest

/-- The leftmost match that starts at the place or after it. -/
def find? (p : Program) (c : Cursor) : Option Found :=
  findFrom p (p.labels * (c.rest.length + 1)) ∅ c.before c.offset c.rest

/-- All matches from the place on that do not overlap, in order. An empty match right at the end of
    the match before, which ended at `last`, does not count. -/
def findAll (p : Program) (last : Option Nat) (c : Cursor) : List Found :=
  match p.find? c with
  | none => []
  | some found =>
      let rest :=
        if found.stop.offset == c.offset then
          match _h : c.rest with
          | [] => []
          | s :: rest => findAll p (some found.stop.offset) (c.past s rest)
        else if _h : found.stop.rest.length < c.rest.length then
          findAll p (some found.stop.offset) found.stop
        else []
      if found.stop.offset == c.offset && last == some found.start then rest else found :: rest
termination_by c.rest.length
decreasing_by
  all_goals simp_all [Cursor.past]

end Program

end Pattern

end Rulebook

import Rulebook.Tree.OfMatch

/-!
# Trees further on

Where a span starts only says where its tree starts: `Matcher.descend_add`.
-/

namespace Rulebook

namespace Tree

mutual

/-- A tree some bytes further on. -/
def shift (k : Nat) : Tree → Tree
  | node name text offset children => node name text (offset + k) (shiftAll k children)

/-- Trees some bytes further on. -/
def shiftAll (k : Nat) : List Tree → List Tree
  | [] => []
  | t :: rest => t.shift k :: shiftAll k rest

end

variable (k : Nat) (t : Tree)

@[simp] theorem name_shift : (t.shift k).name = t.name := by
  cases t
  rfl

@[simp] theorem text_shift : (t.shift k).text = t.text := by
  cases t
  rfl

@[simp] theorem offset_shift : (t.shift k).offset = t.offset + k := by
  cases t
  rfl

theorem shift_rename (name : Bytes) : (t.rename name).shift k = (t.shift k).rename name := by
  cases t
  rfl

theorem find?_shiftAll (name : Bytes) (ts : List Tree) :
    (shiftAll k ts).find? (·.name == name) = (ts.find? (·.name == name)).map (shift k) := by
  induction ts with
  | nil => rfl
  | cons t rest ih =>
    rw [shiftAll, List.find?_cons, List.find?_cons, name_shift, ih]
    split <;> rfl

@[simp] theorem child?_shift (name : Bytes) :
    (t.shift k).child? name = (t.child? name).map (shift k) := by
  cases t with
  | node n text offset children => exact find?_shiftAll k name children

end Tree

namespace Matcher

open Rulebook.Tree

theorem nodeFor_add (parts : Parts) {parts' : Parts} {k : Nat} {regex : Pattern.Regex}
    {found : Pattern.Program.Found} (h : parts' regex found = (parts regex found).map (shiftAll k))
    (text : Bytes) (base : Nat) :
    nodeFor parts' regex text (base + k) found =
      (nodeFor parts regex text base found).map (shift k) := by
  unfold nodeFor
  rw [h]
  cases parts regex found with
  | error e => rfl
  | ok children =>
    simp only [Except.map, shift, Except.ok.injEq, Tree.node.injEq, true_and, and_true]
    omega

mutual

/-- The tree for a span that starts further on. -/
theorem descend_add (span : Bytes) (offset k : Nat) (m : Matcher) :
    m.descend span (offset + k) = (m.descend span offset).map (shift k) := by
  cases m with
  | mk compiled entries =>
    simp only [descend, spanNode]
    cases compiled.get with
    | error e => rfl
    | ok c =>
      dsimp only
      cases c.whole.find? span with
      | none => rfl
      | some found =>
        exact nodeFor_add (fun regex found => partsFor regex found span offset entries)
          (partsFor_add c.whole found span offset k entries) span offset

theorem partsFor_add (regex : Pattern.Regex) (found : Pattern.Program.Found) (text : Bytes)
    (base k : Nat) (entries : List (Entry Matcher)) :
    partsFor regex found text (base + k) entries =
      (partsFor regex found text base entries).map (shiftAll k) := by
  cases entries with
  | nil => rfl
  | cons e rest =>
    simp only [partsFor]
    have later := partsFor_add regex found text base k rest
    cases spanOf? regex found e.name with
    | none => exact later
    | some span =>
      dsimp only
      rw [Nat.add_right_comm, descend_add _ (base + span.1) k e.rule, later]
      cases e.rule.descend (text.slice span.1 span.2) (base + span.1) with
      | error err => rfl
      | ok part =>
        cases partsFor regex found text base rest with
        | error err => rfl
        | ok parts => simp only [Except.map, shiftAll, shift_rename]

end

end Matcher

end Rulebook

import Rulebook.Pattern.Expr

/-!
# Programs

A program is a list of steps to be taken one after another. Where there is a choice, a step holds
the programs to choose from, and the rest of the program follows whichever is chosen. Concatenation
of expressions is concatenation of programs.
-/

namespace Rulebook

namespace Pattern

/-- One step of matching. A step that chooses has a label, which no other choice of the program
    has. -/
inductive Step where
  /-- Take one character of a set. -/
  | one (set : CharSet)
  /-- Go on if a condition holds here. -/
  | test (condition : Assertion)
  /-- Note the offset under a slot. -/
  | mark (slot : Nat)
  /-- Take the first program or, failing that, the second. -/
  | fork (label : Nat) (first second : List Step)
  /-- Take the body once more and come back, or go on. The greedy loop prefers the body. -/
  | loop (label : Nat) (greedy : Bool) (body : List Step)

namespace Step

/-- The first program if greedy, else the second, before the other one. -/
def prefer (label : Nat) (greedy : Bool) (more less : List Step) : Step :=
  if greedy then fork label more less else fork label less more

end Step

/-- Builds a program and tells the first label that it leaves free. -/
abbrev Builder := Nat → List Step × Nat

namespace Builder

/-- The empty program. -/
def nil : Builder := fun label => ([], label)

/-- A program of one step. -/
def step (s : Step) : Builder := fun label => ([s], label)

/-- One program after another. -/
def append (first second : Builder) : Builder := fun label =>
  match first label with
  | (a, label') =>
      match second label' with
      | (b, label'') => (a ++ b, label'')

/-- A program `n` times in a row. -/
def copies : Nat → Builder → Builder
  | 0, _ => nil
  | n + 1, body => append body (copies n body)

/-- A choice. -/
def choice (first second : Builder) : Builder := fun label =>
  match first label with
  | (a, label') =>
      match second label' with
      | (b, label'') => ([.fork label'' a b], label'' + 1)

/-- At most once. -/
def opt (greedy : Bool) (body : Builder) : Builder := fun label =>
  match body label with
  | (a, label') => ([.prefer label' greedy a []], label' + 1)

/-- At least once. -/
def plus (greedy : Bool) (body : Builder) : Builder := fun label =>
  match body label with
  | (a, label') => (a ++ [.loop label' greedy a], label' + 1)

/-- Any number of times. A body that can be empty is tried once before the choice to leave, so
    that its own preferences count. -/
def star (greedy nullable : Bool) (body : Builder) : Builder :=
  if nullable then opt greedy (plus greedy body)
  else fun label =>
    match body label with
    | (a, label') => ([.loop label' greedy a], label' + 1)

/-- At most `n` times, each after the one before. -/
def upTo (greedy : Bool) (body : Builder) : Nat → Builder
  | 0 => nil
  | n + 1 => opt greedy (append body (upTo greedy body n))

/-- At least `min` and at most `max` times. -/
def times (greedy nullable : Bool) (body : Builder) (min : Nat) : Option Nat → Builder
  | none =>
      match min with
      | 0 => star greedy nullable body
      | n + 1 => append (copies n body) (plus greedy body)
  | some max => append (copies min body) (upTo greedy body (max - min))

end Builder

namespace Expr

/-- The slot for the start of a group. The slot after it is for the end. -/
def slot (index : Nat) : Nat := 2 * index

/-- The program of an expression. -/
def build : Expr → Builder
  | empty => .nil
  | one set => .step (.one set)
  | test condition => .step (.test condition)
  | group index _ e =>
      .append (.step (.mark (slot index))) (.append e.build (.step (.mark (slot index + 1))))
  | cat a b => .append a.build b.build
  | alt a b => .choice a.build b.build
  | star greedy e => .star greedy e.nullable e.build
  | plus greedy e => .plus greedy e.build
  | opt greedy e => .opt greedy e.build
  | times min max greedy e => .times greedy e.nullable e.build min max

end Expr

/-- The steps of an expression, and how many labels they have. -/
structure Program where
  steps : List Step
  labels : Nat

/-- The program of an expression. -/
def Program.ofExpr (e : Expr) : Program :=
  match e.build 0 with
  | (steps, labels) => ⟨steps, labels⟩

end Pattern

end Rulebook

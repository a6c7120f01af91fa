import Rulebook.Pattern.Expr

/-!
# Nets

The net of an expression: numbered places, each of which says what is asked for there and which
place comes next. Place zero leads nowhere and the last place is the end of the match. A fork goes
on in one of two ways, the preferred one first.
-/

namespace Rulebook

namespace Pattern

/-- A place of a net. -/
inductive Place where
  /-- There is no way on. -/
  | fail
  /-- The match ends. -/
  | accept
  /-- One character of a set. -/
  | one (set : CharSet) (next : Nat)
  /-- A condition. -/
  | test (condition : Assertion) (next : Nat)
  /-- A bound of a group. -/
  | mark (next : Nat)
  /-- Nothing. -/
  | skip (next : Nat)
  /-- One of two ways. -/
  | fork (first second : Nat)

namespace Place

/-- True of a fork. -/
def isFork : Place → Bool
  | fork _ _ => true
  | _ => false

/-- True of the end of the match. -/
def isAccept : Place → Bool
  | accept => true
  | _ => false

/-- A fork between going into something and passing it by. The greedy one prefers to go in. -/
def choice (greedy : Bool) (into past : Nat) : Place :=
  if greedy then fork into past else fork past into

end Place

/-- The part of a net that an expression takes up. -/
structure Segment where
  /-- How many places there are. -/
  size : Nat
  /-- Whether there is a way through without a character. -/
  nullable : Bool
  /-- Where the way in is, if the first place has a number. -/
  entry : Nat → Nat
  /-- The places, if the first has a number and the way out leads to another. -/
  places : Nat → Nat → List Place

namespace Segment

/-- A single place. -/
def single (nullable : Bool) (place : Nat → Place) : Segment :=
  ⟨1, nullable, id, fun _ next => [place next]⟩

/-- One segment after another. -/
def cat (a b : Segment) : Segment :=
  ⟨a.size + b.size, a.nullable && b.nullable, a.entry, fun start next =>
    a.places start (b.entry (start + a.size)) ++ b.places (start + a.size) next⟩

/-- One of two segments. -/
def alt (a b : Segment) : Segment :=
  ⟨a.size + b.size + 1, a.nullable || b.nullable, fun start => start + a.size + b.size,
    fun start next =>
      a.places start next ++ b.places (start + a.size) next ++
        [.fork (a.entry start) (b.entry (start + a.size))]⟩

/-- At most once. -/
def opt (greedy : Bool) (a : Segment) : Segment :=
  ⟨a.size + 1, true, fun start => start + a.size, fun start next =>
    a.places start next ++ [.choice greedy (a.entry start) next]⟩

/-- At least once. -/
def plus (greedy : Bool) (a : Segment) : Segment :=
  ⟨a.size + 1, a.nullable, a.entry, fun start next =>
    a.places start (start + a.size) ++ [.choice greedy (a.entry start) next]⟩

/-- Any number of times. -/
def star (greedy : Bool) (a : Segment) : Segment :=
  if a.nullable then opt greedy (plus greedy a)
  else { plus greedy a with nullable := true, entry := fun start => start + a.size }

/-- A segment `n` times in a row. -/
def copies (a : Segment) : Nat → Segment
  | 0 => single true .skip
  | 1 => a
  | n + 1 => cat a (copies a n)

/-- At most `n` times, each after the one before. -/
def upTo (greedy : Bool) (a : Segment) : Nat → Segment
  | 0 => single true .skip
  | 1 => opt greedy a
  | n + 1 => opt greedy (cat a (upTo greedy a n))

/-- At least `min` and at most `max` times. -/
def times (greedy : Bool) (a : Segment) : Nat → Option Nat → Segment
  | 0, none => star greedy a
  | 1, none => plus greedy a
  | min, none => cat (copies a (min - 1)) (plus greedy a)
  | 0, some max => upTo greedy a max
  | min, some max =>
      if max ≤ min then copies a min else cat (copies a min) (upTo greedy a (max - min))

end Segment

namespace Expr

/-- The segment of an expression. -/
def segment : Expr → Segment
  | empty => .single true .skip
  | one set => .single false (.one set)
  | test condition => .single true (.test condition)
  | group _ _ e => .cat (.cat (.single true .mark) e.segment) (.single true .mark)
  | cat a b => .cat a.segment b.segment
  | alt a b => .alt a.segment b.segment
  | star greedy e => .star greedy e.segment
  | plus greedy e => .plus greedy e.segment
  | opt greedy e => .opt greedy e.segment
  | times min max greedy e => .times greedy e.segment min max

end Expr

/-- Numbered places, and the one to start at. -/
structure Net where
  start : Nat
  places : Array Place

namespace Net

/-- The net of an expression. -/
def ofExpr (e : Expr) : Net :=
  let body := e.segment
  ⟨body.entry 1, (Place.fail :: body.places 1 (body.size + 1) ++ [Place.accept]).toArray⟩

/-- The place with a number. -/
def place (net : Net) (n : Nat) : Place := net.places.getD n .fail

end Net

end Pattern

end Rulebook

import Rulebook.Pattern.Reader
import Rulebook.Proofs.Pattern.Factor

/-!
# Reading without limits

`Sketch.read` reads tokens as `Reading.run` does, but keeps no account of what is used up: of the
limits it knows only that of the height. It numbers no groups. What a pattern denotes, and whether
it has a fault, does not depend on the rest: a pattern that is read is read by the sketch to the
same expression and the same shape, and a pattern that the sketch reads is either read or refused
for its size.
-/

namespace Rulebook

namespace Pattern

/-! ### Expressions without numbers -/

namespace Expr

/-- The expression without the numbers of its groups. -/
@[simp] def unnumbered : Expr → Expr
  | empty => empty
  | one set => one set
  | test condition => test condition
  | group _ name e => group 0 name e.unnumbered
  | cat a b => cat a.unnumbered b.unnumbered
  | alt a b => alt a.unnumbered b.unnumbered
  | star greedy e => star greedy e.unnumbered
  | plus greedy e => plus greedy e.unnumbered
  | opt greedy e => opt greedy e.unnumbered
  | times min max greedy e => times min max greedy e.unnumbered

@[simp] theorem names_unnumbered (e : Expr) : e.unnumbered.names = e.names := by
  induction e with
  | empty | one | test => rfl
  | group _ _ _ ih => simp [names, ih]
  | cat _ _ ih ih' => simp [names, ih, ih']
  | alt _ _ ih ih' => simp [names, ih, ih']
  | star _ _ ih => simp [names, ih]
  | plus _ _ ih => simp [names, ih]
  | opt _ _ ih => simp [names, ih]
  | times _ _ _ _ ih => simp [names, ih]

@[simp] theorem countsWithin_unnumbered (e : Expr) (limit : Nat) :
    e.unnumbered.countsWithin limit = e.countsWithin limit := by
  induction e generalizing limit with
  | empty | one | test => rfl
  | group _ _ _ ih => simp [countsWithin, ih]
  | cat _ _ ih ih' => simp [countsWithin, ih, ih']
  | alt _ _ ih ih' => simp [countsWithin, ih, ih']
  | star _ _ ih => simp [countsWithin, ih]
  | plus _ _ ih => simp [countsWithin, ih]
  | opt _ _ ih => simp [countsWithin, ih]
  | times _ _ _ _ ih => simp [countsWithin, ih]

theorem unnumbered_repeated (count : Count) (greedy : Bool) (e : Expr) :
    (repeated count greedy e).unnumbered = repeated count greedy e.unnumbered := by
  cases count <;> rfl

theorem unnumbered_concat (es : List Expr) :
    (concat es).unnumbered = concat (es.map unnumbered) := by
  fun_induction concat es with
  | case1 => rfl
  | case2 => rfl
  | case3 e rest several ih =>
    cases rest with
    | nil => exact absurd rfl several
    | cons f rest =>
      simp only [List.map_cons] at ih ⊢
      simp [concat, ih]

theorem unnumbered_choice (es : List Expr) :
    (choice es).unnumbered = choice (es.map unnumbered) := by
  fun_induction choice es with
  | case1 => rfl
  | case2 => rfl
  | case3 e rest several ih =>
    cases rest with
    | nil => exact absurd rfl several
    | cons f rest =>
      simp only [List.map_cons] at ih ⊢
      simp [choice, ih]

end Expr

/-! ### Sketches -/

namespace Shape

/-- The parts of a concatenation, or the shape by itself. -/
def links : Shape → List Shape
  | cat parts _ => parts
  | part => [part]

theorem highest_append (as bs : List Shape) : highest (as ++ bs) = max (highest as) (highest bs) := by
  induction as with
  | nil => simp [highest]
  | cons a as ih => simp [highest, ih, Nat.max_assoc]

theorem highest_links (shape : Shape) : highest shape.links ≤ shape.height := by
  cases shape with
  | cat parts noted => simp [links, height]
  | _ => simp [links, highest]

/-- Several parts put together. -/
def sequence (parts : List Shape) : Shape :=
  match joinStrings parts with
  | [] => empty
  | [part] => part
  | joined => cat (joined.flatMap links) none

/-- One more alternative, the last of which stands first. -/
def also (shape : Shape) : List Shape → List Shape
  | [] => [shape]
  | last :: before =>
      match last.oneOf?, shape.oneOf? with
      | some s, some t => merge last shape s t :: before
      | _, _ => shape :: last :: before

/-- Alternatives put together, the last of which stands first. -/
def select (flags : Flags) (choices : List Shape) : Shape :=
  let parts := (choices.map clean).reverse
  (((choose (total (eachWeighed parts) + 1) parts).run {}).1).asString flags

end Shape

/-- What has been read of a group that is open. -/
structure Layer where
  /-- The name of the group, if it captures. -/
  name : Option Bytes
  /-- The settings to return to after the group. -/
  flags : Flags
  /-- The finished alternatives, the last one first. -/
  finished : List Expr := []
  /-- The parts of the alternative at hand, the last one first. -/
  exprs : List Expr := []
  /-- The shapes of the finished alternatives. -/
  choices : List Shape := []
  /-- The shapes of the parts. -/
  parts : List Shape := []

/-- What has been read of a pattern, without what limits and numbers need. -/
structure Sketch where
  flags : Flags
  top : Layer
  outer : List Layer
  last : Bytes

namespace Sketch

/-- Before anything is read. -/
def start : Sketch := ⟨{}, ⟨none, {}, [], [], [], []⟩, [], []⟩

/-- Goes on with a sketch if a shape in it is not too high. -/
def within {α : Type} (shape : Shape) (next : α) : Option α :=
  if shape.height ≤ maxHeight then some next else none

theorem within_eq {α : Type} (shape : Shape) (next : α) :
    within shape next =
      match within shape () with
      | none => none
      | some _ => some next := by
  unfold within
  split <;> rfl

/-- Adds a part to the alternative at hand. -/
def push (expr : Expr) (shape : Shape) (s : Sketch) : Option Sketch :=
  within shape { s with
    top := { s.top with
      exprs := expr :: s.top.exprs
      parts := shape.asString s.flags :: s.top.parts }
    last := [] }

/-- The shape of the alternative at hand. -/
def body (s : Sketch) : Shape := .sequence s.top.parts.reverse

/-- Ends the alternative at hand. -/
def endAlternative (s : Sketch) : Option Sketch :=
  within s.body { s with
    top := { s.top with
      finished := .concat s.top.exprs.reverse :: s.top.finished
      exprs := []
      choices := s.body.also s.top.choices
      parts := [] }
    last := [] }

/-- All that stands in a group as one expression and one shape. -/
def finish (s : Sketch) : Option (Expr × Shape) :=
  match s.endAlternative with
  | none => none
  | some next =>
      let shape := Shape.select next.flags next.top.choices
      within shape (.choice next.top.finished.reverse, shape)

/-- Opens a group. -/
def enter (name : Option Bytes) (flags : Flags) (s : Sketch) : Sketch :=
  ⟨flags, ⟨name, s.flags, [], [], [], []⟩, s.top :: s.outer, []⟩

/-- A group as a part of what is around it. -/
def close (name : Option Bytes) (expr : Expr) (shape : Shape) (around : Sketch) : Option Sketch :=
  match name with
  | none => around.push expr shape
  | some name => around.push (.group 0 name expr) (.captured 0 shape)

/-- Closes the innermost group. -/
def leave (s : Sketch) : Option Sketch :=
  match s.finish with
  | none => none
  | some (expr, shape) =>
      match s.outer with
      | [] => none
      | layer :: outer => close s.top.name expr shape ⟨s.top.flags, layer, outer, []⟩

/-- Repeats the last part. -/
def repeatLast (count : Count) (marked : Bool) (text : Bytes) (s : Sketch) : Option Sketch :=
  if !s.last.isEmpty then none
  else
    match s.top.exprs, s.top.parts with
    | body :: before, part :: others =>
        let greedy := marked == s.flags.lazy
        let expr := Expr.repeated count greedy body
        let shape := Shape.repeated count greedy part
        if Reading.countsFit count expr then
          within shape
            { s with top := { s.top with exprs := expr :: before, parts := shape :: others },
                     last := text }
        else none
    | _, _ => none

/-- Reads one token. -/
def step (s : Sketch) : Token → Option Sketch
  | .char code => s.push (.char s.flags.fold code) (.ofChar s.flags code)
  | .set items negated =>
      let members := Expr.classSet s.flags.fold items negated
      s.push (.one members) (.set members)
  | .dot => s.push (.dot s.flags.dotAll) (.ofDot s.flags)
  | .caret =>
      let condition := if s.flags.lines then .beginLine else .beginText
      s.push (.test condition) (.test condition)
  | .dollar =>
      let condition := if s.flags.lines then .endLine else .endText
      s.push (.test condition) (.test condition)
  | .test condition => s.push (.test condition) (.test condition)
  | .capture name => some (s.enter (some name) s.flags)
  | .enclose changes => some (s.enter none (s.flags.apply changes))
  | .change changes => some { s with flags := s.flags.apply changes, last := [] }
  | .close => s.leave
  | .bar => s.endAlternative
  | .repeated count marked text => s.repeatLast count marked text

/-- Reads tokens one after another. -/
def run (s : Sketch) : List Token → Option Sketch
  | [] => some s
  | token :: rest =>
      match s.step token with
      | none => none
      | some next => next.run rest

/-- Reads all tokens of a pattern. -/
def read (tokens : List Token) : Option (Expr × Shape) :=
  match start.run tokens with
  | none => none
  | some s => if s.outer.isEmpty then s.finish else none

end Sketch

end Pattern

end Rulebook

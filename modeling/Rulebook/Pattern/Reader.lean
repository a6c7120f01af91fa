import Rulebook.Pattern.Outline
import Rulebook.Pattern.Token.Scan

/-!
# Reading a pattern

`Piece.parse` reads a pattern. The tokens are read one by one; what has been read is kept in a frame
for each group that is still open, the innermost on top: the expressions that have been read, and
their shapes. Every shape that is put together is measured, so that a pattern that exceeds a limit
is refused at the place where it does.
-/

namespace Rulebook

namespace Pattern

/-- A pattern that has been read: what it denotes, and its shape. -/
structure Piece where
  expr : Expr
  shape : Shape

namespace Expr

/-- The characters of a member of a class. -/
def itemSet (fold : Bool) (item : SetItem) : CharSet :=
  let members := if fold then CaseFold.close item.set else item.set
  if item.negated then members.complement else members

/-- The characters of a class. -/
def classSet (fold : Bool) (items : List SetItem) (negated : Bool) : CharSet :=
  let members :=
    match items with
    | [item] => itemSet fold item
    | _ => CharSet.unionAll (items.map (itemSet fold))
  if negated then members.complement else members

/-- A character that stands for itself. -/
def char (fold : Bool) (code : Nat) : Expr := .one (CaseFold.alike fold code)

/-- The dot. -/
def dot (dotAll : Bool) : Expr := .one (if dotAll then .all else .notBreak)

/-- A repetition. -/
def repeated (count : Count) (greedy : Bool) (body : Expr) : Expr :=
  match count with
  | .star => .star greedy body
  | .plus => .plus greedy body
  | .opt => .opt greedy body
  | .times min max => .times min max greedy body

end Expr

/-- What has been read of a group that is open. -/
structure Frame where
  /-- The number and name of the group, if it captures. -/
  group : Option (Nat × Bytes)
  /-- The settings to return to after the group. -/
  flags : Flags
  /-- The finished alternatives, the last one first. -/
  finished : List Expr := []
  /-- The parts of the alternative at hand, the last one first. -/
  exprs : List Expr := []
  /-- The shapes of the same. -/
  outline : Outline := {}

/-- What has been read of a pattern. -/
structure Reading where
  /-- The settings in force. -/
  flags : Flags
  /-- How many groups have been opened. -/
  groups : Nat
  /-- The innermost open group, or the whole pattern. -/
  top : Frame
  /-- What is around it. -/
  outer : List Frame
  /-- The text of the repetition just read, if the last token was one. -/
  last : Bytes
  /-- What has been used up. -/
  usage : Usage

namespace Reading

/-- Before anything is read. -/
def start : Reading := ⟨{}, 0, ⟨none, {}, [], [], {}⟩, [], [], {}⟩

/-- Does something to what is used up. -/
def meter {α : Type} (reading : Reading) (action : Metered α) : α × Reading :=
  match action.run reading.usage with
  | (result, usage) => (result, { reading with usage := usage })

/-- Every shape that is at hand. -/
def shapes (reading : Reading) : List Shape :=
  (reading.top :: reading.outer).flatMap (·.outline.shapes)

/-- Starts to count steps. -/
def startWeighing (reading : Reading) : Reading :=
  let weigh (frame : Frame) : Frame := { frame with outline := frame.outline.allWeighed }
  { reading with
    top := weigh reading.top
    outer := reading.outer.map weigh
    usage := { reading.usage with weighing := true } }

/-- Refuses the pattern `source` if a shape that has just been put together exceeds a limit. -/
def measure (source : Bytes) (shape : Shape) (reading : Reading) : Except Fault Reading :=
  let counted := (reading.meter (Usage.count shape)).2
  let starts := counted.usage.mustWeigh
  let next := if starts then counted.startWeighing else counted
  let tooHeavy (shape : Shape) : Bool := maxWeight < shape.weight
  if maxListed < next.usage.listed then .error ⟨.tooLarge, source⟩
  else if starts && next.shapes.any tooHeavy then .error ⟨.tooLarge, source⟩
  else if next.usage.weighing && tooHeavy shape then .error ⟨.tooLarge, source⟩
  else if maxHeight < shape.height then .error ⟨.nestingDepth, source⟩
  else .ok next

/-- Does something to the outline of the innermost group. -/
def sketch (action : Outline → Metered Outline) (reading : Reading) : Reading :=
  match reading.meter (action reading.top.outline) with
  | (outline, next) => { next with top := { next.top with outline := outline } }

/-- Adds a part to the alternative at hand. -/
def push (source : Bytes) (expr : Expr) (shape : Shape) (reading : Reading) :
    Except Fault Reading :=
  let drawn := reading.sketch (Outline.push reading.flags shape)
  let next := { drawn with
    top := { drawn.top with exprs := expr :: drawn.top.exprs }
    last := [] }
  if reading.top.outline.takesOver reading.flags shape then .ok next
  else measure source shape next

/-- Adds a new part to the alternative at hand. -/
def add (source : Bytes) (expr : Expr) (shape : Shape) (reading : Reading) :
    Except Fault Reading :=
  (reading.meter Usage.take).2.push source expr shape

/-- Adds a condition to the alternative at hand. -/
def test (source : Bytes) (condition : Assertion) (reading : Reading) : Except Fault Reading :=
  reading.add source (.test condition) (.test condition)

/-- Refuses the pattern `source` if the alternative at hand, which has just been put together,
    exceeds a limit. -/
def measureBody (source : Bytes) (reading : Reading) : Except Fault Reading :=
  reading.measure source reading.top.outline.body

/-- Ends the alternative at hand. -/
def endAlternative (source : Bytes) (reading : Reading) : Except Fault Reading :=
  match (reading.sketch Outline.sequence).measureBody source with
  | .error fault => .error fault
  | .ok whole =>
      let next := whole.sketch Outline.next
      .ok { next with
        top := { next.top with
          finished := .concat next.top.exprs.reverse :: next.top.finished
          exprs := [] }
        last := [] }

/-- All that stands in a group as one piece. -/
def finish (source : Bytes) (reading : Reading) : Except Fault (Piece × Reading) :=
  match endAlternative source reading with
  | .error fault => .error fault
  | .ok next =>
      match (next.sketch (Outline.choice next.flags)).measureBody source with
      | .error fault => .error fault
      | .ok next => .ok (⟨.choice next.top.finished.reverse, next.top.outline.body⟩, next)

/-- Starts an alternative after the first. -/
def bar (source : Bytes) (reading : Reading) : Except Fault Reading :=
  match endAlternative source reading with
  | .error fault => .error fault
  | .ok next =>
      if reading.top.finished.isEmpty then measure source .empty (next.meter Usage.take).2
      else .ok next

/-- Opens a group. -/
def enter (source : Bytes) (group : Option (Nat × Bytes)) (groups : Nat) (flags : Flags)
    (reading : Reading) : Except Fault Reading :=
  let around := (reading.meter Usage.take).2.sketch Outline.settle
  measure source .empty
    ⟨flags, groups, ⟨group, reading.flags, [], [], {}⟩, around.top :: around.outer, [],
      around.usage⟩

/-- Closes the innermost group. -/
def leave (source : Bytes) (reading : Reading) : Except Fault Reading :=
  match finish source reading with
  | .error fault => .error fault
  | .ok (body, next) =>
      match next.outer with
      | [] => .error ⟨.unexpectedParen, source⟩
      | frame :: outer =>
          let around : Reading := ⟨next.top.flags, next.groups, frame, outer, [], next.usage⟩
          match next.top.group with
          | none => around.push source body.expr body.shape
          | some (index, name) =>
              around.push source (.group index name body.expr) (.captured index body.shape)

/-- True if the counts of a repetition, multiplied by those inside it, stay within the limit. Only a
    repetition with counts can exceed it. -/
def countsFit (count : Count) (expr : Expr) : Bool :=
  match count with
  | .times _ _ => expr.countsWithin Token.maxCount
  | _ => true

/-- Repeats the last part. -/
def repeatLast (source : Bytes) (count : Count) (marked : Bool) (text : Bytes)
    (reading : Reading) : Except Fault Reading :=
  if !reading.last.isEmpty then .error ⟨.invalidRepeatOp, reading.last ++ text⟩
  else
    match reading.top.exprs, reading.top.outline.parts with
    | body :: before, part :: others =>
        let greedy := marked == reading.flags.lazy
        let expr := Expr.repeated count greedy body
        let shape := Shape.repeated count greedy part
        let outline := { reading.top.outline with parts := shape :: others }
        let next := (reading.meter Usage.take).2
        match measure source shape { next with
          top := { next.top with exprs := expr :: before, outline := outline }
          last := text } with
        | .error fault => .error fault
        | .ok next =>
            if countsFit count expr then .ok next else .error ⟨.invalidRepeatSize, text⟩
    | _, _ => .error ⟨.missingRepeatArgument, text⟩

/-- Reads one token of the pattern `source`. -/
def step (source : Bytes) (reading : Reading) : Token → Except Fault Reading
  | .char code =>
      reading.add source (.char reading.flags.fold code) (.ofChar reading.flags code)
  | .set items negated =>
      let members := Expr.classSet reading.flags.fold items negated
      reading.add source (.one members) (.set members)
  | .dot => reading.add source (.dot reading.flags.dotAll) (.ofDot reading.flags)
  | .caret => reading.test source (if reading.flags.lines then .beginLine else .beginText)
  | .dollar => reading.test source (if reading.flags.lines then .endLine else .endText)
  | .test condition => reading.test source condition
  | .capture name =>
      reading.enter source (some (reading.groups + 1, name)) (reading.groups + 1) reading.flags
  | .enclose changes => reading.enter source none reading.groups (reading.flags.apply changes)
  | .change changes => .ok { reading with flags := reading.flags.apply changes, last := [] }
  | .close => reading.leave source
  | .bar => reading.bar source
  | .repeated count marked text => reading.repeatLast source count marked text

/-- Reads tokens up to the first fault. -/
def run (source : Bytes) (reading : Reading) : List (Except Fault Token) → Except Fault Reading
  | [] => .ok reading
  | .error fault :: _ => .error fault
  | .ok token :: rest =>
      match step source reading token with
      | .error fault => .error fault
      | .ok next => run source next rest

end Reading

/-- Reads a pattern. -/
def Piece.parse (source : Bytes) : Except Fault Piece :=
  match Reading.run source .start (Token.scan source.scalars) with
  | .error fault => .error fault
  | .ok reading =>
      match reading.finish source with
      | .error fault => .error fault
      | .ok (piece, _) =>
          if reading.outer.isEmpty then .ok piece else .error ⟨.missingParen, source⟩

end Pattern

end Rulebook

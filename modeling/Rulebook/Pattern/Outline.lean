import Rulebook.Pattern.Factor

/-!
# Outlines

The shape of a group while it is read: the alternatives that are finished and the parts of the one
at hand. Each operation says how many nodes it makes, sets aside and lists.
-/

namespace Rulebook

namespace Pattern

/-- What has been read of a group, as shapes. -/
structure Outline where
  /-- The finished alternatives, the last one first. -/
  choices : List Shape := []
  /-- The parts of the alternative at hand, the last one first. -/
  parts : List Shape := []
  /-- Whether the last part has been joined to the one before it. -/
  joined : Bool := false

namespace Outline

/-- All shapes of the group. -/
def shapes (o : Outline) : List Shape := o.parts ++ o.choices

/-- True if the last two parts are strings that have yet to be joined. -/
def joins (o : Outline) : Bool :=
  match o.parts with
  | last :: before :: _ => !o.joined && Shape.joins before last
  | _ => false

/-- The last part of the alternative at hand. Once its parts have been put together, it is the only
    one. -/
def body (o : Outline) : Shape := o.parts.headD .empty

/-- Joins the last two parts if they are strings. Something follows, so that the last part will not
    be repeated any more. -/
def settle (o : Outline) : Metered Outline := do
  if o.joins then Usage.drop o.body
  pure { o with joined := true }

/-- True if a set of one character is added after two strings. It takes over the node of the second
    one, and is not weighed. -/
def takesOver (flags : Flags) (shape : Shape) (o : Outline) : Bool :=
  match shape, shape.asString flags with
  | .set _, .literal _ _ _ => o.joins
  | _, _ => false

/-- Adds a part. A set of one character becomes a string with the settings `flags`. -/
def push (flags : Flags) (shape : Shape) (o : Outline) : Metered Outline := do
  Usage.list shape.listed
  let part := shape.asString flags
  if o.takesOver flags shape then
    pure { o with parts := part.withNote o.body.noted :: o.parts, joined := false }
  else do
    if o.joins then Usage.drop o.body
    pure { o with parts := (← Usage.weigh part) :: o.parts, joined := false }

/-- The parts of all concatenations of a list, with everything else that is in it. -/
def flatten : List Shape → Metered (List Shape)
  | [] => pure []
  | .cat parts noted :: rest => do
      Usage.drop (.cat parts noted)
      let others ← flatten rest
      pure (parts ++ others)
  | part :: rest => do
      let others ← flatten rest
      pure (part :: others)

/-- Puts the parts of the alternative at hand together. -/
def sequence (o : Outline) : Metered Outline := do
  let o ← o.settle
  match Shape.joinStrings o.parts.reverse with
  | [] => do
      let _ ← Usage.take
      pure { o with parts := [.empty] }
  | [part] => do
      Usage.list part.listed
      pure { o with parts := [← Usage.weigh part] }
  | parts => do
      let _ ← Usage.take
      pure { o with parts := [.cat (← flatten parts) none] }

/-- Ends the alternative at hand. Characters that follow each other in a choice become one set. -/
def next (o : Outline) : Metered Outline :=
  match o.choices with
  | [] => pure { choices := [o.body] }
  | last :: before =>
      match last.oneOf?, o.body.oneOf? with
      | some s, some t => do
          Usage.drop o.body
          pure { choices := Shape.merge last o.body s t :: before }
      | _, _ => pure { choices := o.body :: o.choices }

/-- Puts the alternatives together. -/
def choice (flags : Flags) (o : Outline) : Metered Outline := do
  let parts := (o.choices.map Shape.clean).reverse
  let shape ← Shape.choose (Shape.total (Shape.eachWeighed parts) + 1) parts
  Usage.list shape.listed
  pure { parts := [← Usage.weigh (shape.asString flags)], joined := true }

/-- Weighs everything for the first time. -/
def allWeighed (o : Outline) : Outline :=
  let parts :=
    match o.joined, o.parts with
    | false, last :: before => last :: (Shape.joinStrings before.reverse).reverse
    | _, parts => (Shape.joinStrings parts.reverse).reverse
  { o with choices := o.choices.map Shape.allWeighed, parts := parts.map Shape.allWeighed }

end Outline

end Pattern

end Rulebook

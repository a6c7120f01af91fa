import Rulebook.Pattern.Usage

/-!
# Common beginnings

A choice between shapes, in the form that is measured. Alternatives that begin with the same string,
or with the same character, are put together: what they have in common stands once, in front of a
choice between what is left of them. Characters that stand side by side in a choice become one set.
-/

namespace Rulebook

namespace Pattern

namespace Shape

/-! ### Strings in common -/

/-- The string that a shape begins with, and whether it is without regard to case. -/
def leadingString : Shape → List Nat × Bool
  | literal codes flags _ => (codes, flags.fold)
  | cat (literal codes flags _ :: _) _ => (codes, flags.fold)
  | _ => ([], false)

/-- A string without its first `n` characters. -/
def dropString (n : Nat) : Shape → Shape
  | literal codes flags noted =>
      if codes.length ≤ n then empty else literal (codes.drop n) flags noted
  | other => other

/-- A shape without the first `n` characters of the string it begins with. -/
def dropLeadingString (n : Nat) : Shape → Metered Shape
  | cat (first :: rest) noted =>
      match dropString n first, rest with
      | empty, [] => do
          Usage.drop first
          pure empty
      | empty, [part] => do
          Usage.drop first
          Usage.drop (cat (first :: rest) noted)
          pure part
      | empty, parts => do
          Usage.drop first
          pure (cat parts noted)
      | part, parts => pure (cat (part :: parts) noted)
  | other => pure (dropString n other)

/-- What two strings have in common at their beginning. -/
def commonStart : List Nat → List Nat → List Nat
  | a :: as, b :: bs => if a == b then a :: commonStart as bs else []
  | _, _ => []

/-- Groups neighbours that begin with a common string. -/
def groupByString : List Shape → List ((List Nat × Bool) × List Shape)
  | [] => []
  | part :: rest => go part.leadingString [part] rest
where
  /-- Extends the group at hand as long as its members share a beginning. -/
  go (lead : List Nat × Bool) (members : List Shape) :
      List Shape → List ((List Nat × Bool) × List Shape)
    | [] => [(lead, members.reverse)]
    | part :: rest =>
        let next := part.leadingString
        let common := if next.2 == lead.2 then commonStart lead.1 next.1 else []
        if common.isEmpty then (lead, members.reverse) :: go next [part] rest
        else go (common, lead.2) (part :: members) rest

/-! ### Parts in common -/

/-- The first part of a shape. -/
def leadingPart : Shape → Option Shape
  | empty => none
  | cat (empty :: _) _ => none
  | cat (first :: _) _ => some first
  | other => some other

/-- A shape without its first part. The part is kept if it is to stand in front. -/
def dropLeadingPart (kept : Bool) : Shape → Metered Shape
  | cat (first :: rest) noted => do
      if !kept then Usage.drop first
      match rest with
      | [] => pure empty
      | [part] => do
          Usage.drop (cat (first :: rest) noted)
          pure part
      | parts => pure (cat parts noted)
  | other => do
      if !kept then Usage.drop other
      let _ ← Usage.take
      pure empty

/-- True of two equal characters or sets. -/
def sameChar : Shape → Shape → Bool
  | literal [a] f _, literal [b] g _ => a == b && f.fold == g.fold
  | set s, set t => s == t
  | notBreak, notBreak => true
  | any, any => true
  | _, _ => false

/-- True of two equal characters or sets, or of two equal repetitions of them with a fixed
    count. -/
def sameStart : Shape → Shape → Bool
  | repeated (.times a (some b)) g s, repeated (.times c (some d)) h t =>
      a == b && a == c && b == d && g == h && sameChar s t
  | a, b => sameChar a b

/-- Groups neighbours whose first parts are the same. -/
def groupByPart : List Shape → List (Option Shape × List Shape)
  | [] => []
  | part :: rest => go part.leadingPart [part] rest
where
  /-- Extends the group at hand as long as its members share their first part. -/
  go (lead : Option Shape) (members : List Shape) :
      List Shape → List (Option Shape × List Shape)
    | [] => [(lead, members.reverse)]
    | part :: rest =>
        match lead, part.leadingPart with
        | some a, some b =>
            if sameStart a b then go lead (part :: members) rest
            else (lead, members.reverse) :: go (some b) [part] rest
        | _, next => (lead, members.reverse) :: go next [part] rest

/-! ### Choices -/

/-- Joins characters that stand side by side in a choice. -/
def joinChars : List Shape → Metered (List Shape)
  | [] => pure []
  | part :: rest => go part false rest
where
  /-- Extends the character at hand, which has been joined already or not. -/
  go (last : Shape) (joined : Bool) : List Shape → Metered (List Shape)
    | [] => pure [if joined then last.clean else last]
    | part :: rest =>
        match last.oneOf?, part.oneOf? with
        | some s, some t => do
            Usage.drop part
            go (merge last part s t) true rest
        | _, _ => do
            let others ← go part false rest
            pure ((if joined then last.clean else last) :: others)

/-- Leaves one of several empty texts that stand side by side. -/
def joinEmpty : List Shape → List Shape
  | empty :: empty :: rest => joinEmpty (empty :: rest)
  | part :: rest => part :: joinEmpty rest
  | [] => []

/-- The alternatives of all choices of a list, with everything else that is in it. -/
def flatten : List Shape → Metered (List Shape)
  | [] => pure []
  | alt parts noted :: rest => do
      Usage.drop (alt parts noted)
      let others ← flatten rest
      pure (parts ++ others)
  | part :: rest => do
      let others ← flatten rest
      pure (part :: others)

/-- Weighs what is left of an alternative. -/
def weighRest (shape : Shape) : Metered Shape := do
  Usage.count shape
  Usage.weigh shape

/-- A choice between shapes, with common beginnings taken out in front. The first argument bounds
    how often beginnings are taken out of what is left. -/
def choose : Nat → List Shape → Metered Shape
  | 0, parts => pure (alt parts none)
  | _ + 1, [part] => pure part
  | depth + 1, parts => do
      let noted ← Usage.take
      let strings ← (groupByString (← flatten parts)).mapM fun (lead, members) =>
        match members with
        | [part] => pure part
        | _ => do
            let string := literal lead.1 { fold := lead.2 } (← Usage.take)
            let rests ← members.mapM fun member => do
              weighRest (← dropLeadingString lead.1.length member)
            let suffix ← choose depth rests
            pure (cat [string, suffix] (← Usage.take))
      let starts ← (groupByPart strings).mapM fun (lead, members) =>
        match lead, members with
        | some first, member :: others@(_ :: _) => do
            let left ← weighRest (← dropLeadingPart true member)
            let rests ← others.mapM fun other => do
              weighRest (← dropLeadingPart false other)
            let suffix ← choose depth (left :: rests)
            pure (cat [first, suffix] (← Usage.take))
        | _, part :: _ => pure part
        | _, [] => pure empty
      match joinEmpty (← joinChars starts) with
      | [part] => do
          Usage.putBack noted
          pure part
      | joined => pure (alt joined noted)

end Shape

end Pattern

end Rulebook

import Rulebook.Pattern.Net
import Rulebook.Pattern.Search
import Rulebook.Pattern.Shape

/-!
# Leads

A surrogate is not a character of any text, so that a pattern that asks for one finds nothing, with
one exception. If a pattern is tied to the start of the text, and the next character always decides
how to go on, then the string that it begins with, its lead, is compared byte by byte. In bytes a
surrogate is written like the replacement character, and is found where that character stands.
-/

namespace Rulebook

namespace Pattern

/-! ### Shapes as expressions -/

namespace Expr

/-- At most once. Twice is not more, and nothing is not either. -/
def atMostOnce (greedy : Bool) (e : Expr) : Expr :=
  match e with
  | empty => empty
  | opt g _ => if g == greedy then e else opt greedy e
  | _ => opt greedy e

/-- At least once. -/
def atLeastOnce (greedy : Bool) (e : Expr) : Expr :=
  match e with
  | empty => empty
  | plus g _ => if g == greedy then e else plus greedy e
  | _ => plus greedy e

/-- Any number of times. -/
def anyTimes (greedy : Bool) (e : Expr) : Expr :=
  match e with
  | empty => empty
  | star g _ => if g == greedy then e else star greedy e
  | _ => star greedy e

/-- At most `n + 1` times, each after the one before. -/
def nested (greedy : Bool) (e : Expr) : Nat → Expr
  | 0 => atMostOnce greedy e
  | n + 1 => atMostOnce greedy (cat e (nested greedy e n))

/-- A repetition with its counts written out. -/
def writtenOut (greedy : Bool) (e : Expr) : Count → Expr
  | .star => anyTimes greedy e
  | .plus => atLeastOnce greedy e
  | .opt => atMostOnce greedy e
  | .times _ (some 0) => empty
  | .times 0 none => anyTimes greedy e
  | .times min none => concat (List.replicate (min - 1) e ++ [atLeastOnce greedy e])
  | .times min (some max) =>
      let rest := if min < max then [nested greedy e (max - min - 1)] else []
      concat (List.replicate min e ++ rest)

end Expr

namespace Shape

mutual

/-- What a shape denotes, with all counts written out. -/
def toExpr : Shape → Expr
  | empty => .empty
  | literal codes flags _ => .concat (codes.map fun code => .one (CaseFold.alike flags.fold code))
  | set members => .one members
  | notBreak => .one .notBreak
  | any => .one .all
  | test condition => .test condition
  | captured index body => .group index [] body.toExpr
  | repeated count greedy body => .writtenOut greedy body.toExpr count
  | cat parts _ => .concat (toExprs parts)
  | alt parts _ =>
      match toExprs parts with
      | [] => .empty
      | first :: rest => rest.foldl .alt first

/-- What several shapes denote. -/
def toExprs : List Shape → List Expr
  | [] => []
  | part :: rest => part.toExpr :: toExprs rest

end

end Shape

namespace Net

/-! ### The lead -/

/-- A code point that no text holds. -/
def isSurrogate (code : Nat) : Bool := 0xD800 ≤ code && code ≤ 0xDFFF

/-- The code point that stands for bytes that are not UTF-8. -/
def replacement : Nat := 0xFFFD

/-- The characters that follow each other from a place on, each without an alternative. -/
def string (net : Net) : Nat → Nat → List Nat
  | 0, _ => []
  | fuel + 1, n =>
      match net.place n with
      | .one ⟨[(code, last)]⟩ next =>
          if code == last && code != replacement then code :: net.string fuel next else []
      | _ => []

/-- The first place from another on that asks for something. -/
def pastSkips (net : Net) : Nat → Nat → Nat
  | 0, n => n
  | fuel + 1, n =>
      match net.place n with
      | .skip next => net.pastSkips fuel next
      | _ => n

/-- The string that a net begins with, if it is tied to the start of the text. -/
def lead? (net : Net) : Option (List Nat) :=
  match net.place net.start with
  | .test .beginText next =>
      let size := net.places.size
      some (net.string size (net.pastSkips size next))
  | _ => none

/-! ### The next character decides -/

/-- True if the match ends at the end of the text, or if there is just one way to the end. -/
def endsPlainly (net : Net) : Bool :=
  let leadsOut (n : Nat) : Bool := (net.place n).isAccept
  let forked := net.places.any Place.isFork
  net.places.all fun place =>
    match place with
    | .fork first second => !leadsOut first && !leadsOut second
    | .test .endText _ => true
    | .test _ next => !leadsOut next
    | .one _ next => !(forked && leadsOut next)
    | .mark next => !(forked && leadsOut next)
    | .skip next => !(forked && leadsOut next)
    | .fail => true
    | .accept => true

/-- Shortens the way from a fork through another fork that leads back to it, or to where the first
    one leads too. -/
def shorten (net : Net) (n : Nat) : Net :=
  match net.place n with
  | .fork first second =>
      -- which of the two ways is a fork, and whether it is the first
      let through? : Option (Nat × Nat × Bool) :=
        if (net.place second).isFork then some (second, first, false)
        else if (net.place first).isFork then some (first, second, true)
        else none
      match through? with
      | none => net
      | some (inner, other, isFirst) =>
          if (net.place other).isFork then net
          else
            match net.place inner with
            | .fork a b =>
                let inner' : Place :=
                  if a == n then .fork other b else if b == n then .fork a other else .fork a b
                let back := if a == n then other else if b == n then other else a
                let onward := if a != n && b == n then a else b
                let outer : Place :=
                  if other != back then .fork first second
                  else if isFirst then .fork onward second
                  else .fork first onward
                { net with
                  places := (net.places.setIfInBounds inner inner').setIfInBounds n outer }
            | _ => net
  | _ => net

/-- Shortens the way from every fork. -/
def shortened (net : Net) : Net := (List.range net.places.size).foldl shorten net

/-- What can come next: a character of a set, or the end. -/
structure Ahead where
  chars : CharSet
  ends : Bool

/-- What is known of the places of a net. -/
structure Survey where
  /-- What can come next at each place. -/
  ahead : Array Ahead
  /-- The places that have been looked at since the last character. -/
  seen : Std.HashSet Nat
  /-- The places after a character that have been met. -/
  met : Std.HashSet Nat
  /-- Those of them that are still to be looked at. -/
  due : List Nat

namespace Survey

/-- What can come next at a place. -/
def look (s : Survey) (n : Nat) : Ahead := s.ahead.getD n ⟨.empty, false⟩

/-- Notes what can come next at a place. -/
def note (s : Survey) (n : Nat) (ahead : Ahead) : Survey :=
  { s with ahead := s.ahead.setIfInBounds n ahead }

/-- Meets a place after a character. -/
def meet (s : Survey) (n : Nat) : Survey :=
  if s.met.contains n then s else { s with met := s.met.insert n, due := s.due ++ [n] }

end Survey

/-- Looks at a place and at all that can be reached from it without a character. The answer is no if
    the ways from a fork can begin with the same character, or if both can end. -/
def decides (net : Net) : Nat → Nat → Survey → Bool × Survey
  | 0, _, s => (true, s)
  | fuel + 1, n, s =>
      let pass (next : Nat) (s : Survey) : Bool × Survey :=
        match net.decides fuel next s with
        | (ok, s) => (ok, s.note n (s.look next))
      if s.seen.contains n then (true, s)
      else
        let s := { s with seen := s.seen.insert n }
        match net.place n with
        | .fail => (true, s.note n ⟨.empty, false⟩)
        | .accept => (true, s.note n ⟨.empty, true⟩)
        | .one set next => (true, (s.note n ⟨set, false⟩).meet next)
        | .test _ next => pass next s
        | .mark next => pass next s
        | .skip next => pass next s
        | .fork first second =>
            match net.decides fuel first s with
            | (false, s) => (false, s)
            | (true, s) =>
                match net.decides fuel second s with
                | (false, s) => (false, s)
                | (true, s) =>
                    let a := s.look first
                    let b := s.look second
                    if (a.ends && b.ends) || !a.chars.disjoint b.chars then (false, s)
                    else (true, s.note n ⟨a.chars.union b.chars, a.ends || b.ends⟩)

/-- Looks at all places that are due. -/
def decidesAll (net : Net) : Nat → Survey → Bool
  | 0, _ => true
  | fuel + 1, s =>
      match s.due with
      | [] => true
      | n :: due =>
          match net.decides (net.places.size + 1) n { s with seen := ∅, due := due } with
          | (false, _) => false
          | (true, s) => net.decidesAll fuel s

/-- How many places a net may have to be looked at. -/
def maxPlaces : Nat := 1000

/-- True if the next character always decides how to go on. -/
def isDecided (net : Net) : Bool :=
  net.places.size < maxPlaces && net.endsPlainly &&
    net.shortened.decidesAll (net.places.size + 1)
      ⟨Array.replicate net.places.size ⟨.empty, false⟩, ∅, {net.start}, [net.start]⟩

end Net

/-- A pattern that is found by its lead: the lead in bytes, and the program for what follows. -/
structure Lead where
  text : Bytes
  program : Program

namespace Lead

/-- A character in bytes. A surrogate is written like the replacement character. -/
def encode (code : Nat) : Bytes :=
  Bytes.ofChar (if Net.isSurrogate code then Char.ofNat Net.replacement else Char.ofNat code)

/-- The lead of a shape, if it matters: if it asks for a surrogate. A shape that is far too heavy
    for a net is not written out. -/
def ofShape? (shape : Shape) : Option Lead :=
  if 100 * Net.maxPlaces ≤ shape.allWeighed.weight then none
  else
    let e := shape.toExpr
    let net := Net.ofExpr e
    match net.lead? with
    | none => none
    | some codes =>
        if codes.any Net.isSurrogate && net.isDecided then
          let program := Program.ofExpr e
          some ⟨codes.flatMap encode,
            { program with steps := program.steps.drop (codes.length + 1) }⟩
        else none

/-- The match at the start of a text. -/
def find? (lead : Lead) (text : Bytes) : Option Program.Found :=
  if lead.text.isPrefixOf text then
    let rest := Bytes.scalars (text.drop lead.text.length)
    let before := (Bytes.scalars lead.text).getLast?.map Scalar.char
    match Program.run (lead.program.labels * (rest.length + 1)) ∅
        [⟨lead.program.steps, ⟨before, lead.text.length, rest⟩, []⟩] with
    | (some t, _) => some ⟨0, t.place, t.marks⟩
    | (none, _) => none
  else none

end Lead

end Pattern

end Rulebook

import Rulebook.Rule

/-!
# Walking a rule

A visitor sees the entries that can be reached from a rule in the order of their patterns, each
before the entries of its own rule. At each entry it says whether to go on into the entry's rule, to
pass over it, or to stop.
-/

namespace Rulebook

/-- What a visitor says at an entry. -/
inductive Advice where
  /-- Visit the entries of the entry's rule. -/
  | descend
  /-- Leave them out. -/
  | skip
  /-- Visit nothing more. -/
  | stop
  deriving DecidableEq, Repr

/-- The entries that were visited, and whether the visitor stopped. -/
structure Walk where
  visited : List (Entry Rule)
  stopped : Bool

namespace Walk

/-- No entry was visited. -/
def nothing : Walk := ⟨[], false⟩

/-- The walk over an entry and what lies below it, as a visitor advises. -/
@[inline] def visiting (advice : Advice) (here : Entry Rule) (below : Walk) : Walk :=
  match advice with
  | .stop => ⟨[here], true⟩
  | .skip => ⟨[here], false⟩
  | .descend => ⟨here :: below.visited, below.stopped⟩

end Walk

namespace Rule

mutual

/-- Visits an entry and, if the visitor says so, what lies below it. -/
def visitEntry (visitor : Entry Rule → Advice) (name : Bytes) : Rule → Walk
  | regex tag source =>
      let here : Entry Rule := ⟨name, regex tag source⟩
      .visiting (visitor here) here .nothing
  | text tag literal =>
      let here : Entry Rule := ⟨name, text tag literal⟩
      .visiting (visitor here) here .nothing
  | combine tag how entries =>
      let here : Entry Rule := ⟨name, combine tag how entries⟩
      .visiting (visitor here) here (visitEntries visitor entries)

/-- Visits entries one after another until the visitor stops. -/
def visitEntries (visitor : Entry Rule → Advice) : List (Entry Rule) → Walk
  | [] => .nothing
  | ⟨name, r⟩ :: rest =>
      let first := visitEntry visitor name r
      if first.stopped then first
      else
        let others := visitEntries visitor rest
        ⟨first.visited ++ others.visited, others.stopped⟩

end

/-- Walks over a rule, which the visitor first sees as an anonymous entry. -/
def visit (visitor : Entry Rule → Advice) (r : Rule) : Walk := visitEntry visitor [] r

/-- The names of the named entries that can be reached from a rule, in the order of the walk. -/
def captures (r : Rule) : List Bytes :=
  ((r.visit fun _ => .descend).visited.filter Entry.isNamed).map Entry.name

end Rule

end Rulebook

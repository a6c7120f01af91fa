import Rulebook.Error
import Rulebook.Rule

/-!
# Registries

A registry holds the rules of one grammar under their names, in the order in which the names were
first set. Setting a name again replaces its rule and keeps its place.
-/

namespace Rulebook

/-- Rules under names, in the order in which the names were first set. -/
structure Registry where
  entries : List (Entry Rule)
  deriving DecidableEq

namespace Registry

/-- The registry without rules. -/
def empty : Registry := ⟨[]⟩

/-- The names, in order. -/
def names (r : Registry) : List Bytes := r.entries.map Entry.name

/-- The number of rules. -/
def size (r : Registry) : Nat := r.entries.length

/-- The rule under a name. -/
def get? (r : Registry) (name : Bytes) : Option Rule :=
  (r.entries.find? (·.name == name)).map Entry.rule

/-- The rule under a name, or the error that there is none. -/
def get (r : Registry) (name : Bytes) : Except Error Rule :=
  match r.get? name with
  | some rule => .ok rule
  | none => .error (.unknownRule name)

/-- The first name under which a rule stands. -/
def nameOf? (r : Registry) (rule : Rule) : Option Bytes :=
  (r.entries.find? (·.rule == rule)).map Entry.name

/-- Puts an entry in the place of the one with its name, or at the end. -/
def put (e : Entry Rule) : List (Entry Rule) → List (Entry Rule)
  | [] => [e]
  | d :: rest => if d.name == e.name then e :: rest else d :: put e rest

/-- The registry with a rule under a name. -/
def insert (r : Registry) (name : Bytes) (rule : Rule) : Registry := ⟨put ⟨name, rule⟩ r.entries⟩

/-- Registers a rule, if the name is valid and there is a rule. -/
def set (r : Registry) (name : Bytes) : Option Rule → Except Error Registry
  | none =>
      .error (.registration name (if isValidName name then .missingRule else .invalidName))
  | some rule =>
      if isValidName name then .ok (r.insert name rule)
      else .error (.registration name .invalidName)

/-- Registers all rules of another registry, in its order. -/
def merge (r other : Registry) : Registry :=
  other.entries.foldl (fun r e => r.insert e.name e.rule) r

/-- The rules with their patterns, one a line. -/
def display (r : Registry) : Bytes :=
  let line (e : Entry Rule) : Bytes := "  " ++ e.name ++ ": " ++ e.rule.pattern ++ "\n"
  "\x7b\n" ++ r.entries.flatMap line ++ "\x7d"

/-! ## Basic rules -/

/-- The tag of the basic rules. -/
def basicTag : Nat := 0

/-- The rules that are useful everywhere. -/
def basic : Registry :=
  let letter : Rule := .regex basicTag "[a-zA-Z]"
  let digit : Rule := .regex basicTag "[0-9]"
  let underscore : Rule := .text basicTag "_"
  let wordChar : Rule := .combine basicTag .oneOf [⟨[], letter⟩, ⟨[], digit⟩, ⟨[], underscore⟩]
  ⟨[⟨"anything", .regex basicTag "."⟩,
    ⟨"letter", letter⟩,
    ⟨"digit", digit⟩,
    ⟨"underscore", underscore⟩,
    ⟨"whitespace", .regex basicTag "\\s"⟩,
    ⟨"word", .combine basicTag (.oneOrMore false) [⟨[], wordChar⟩]⟩]⟩

end Registry

end Rulebook

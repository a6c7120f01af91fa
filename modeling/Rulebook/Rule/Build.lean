import Rulebook.Error
import Rulebook.Rule

/-!
# Building rules

Leaves can always be built. A combination needs a kind that combines, at least one item, and items
that each have a rule and either no name or a valid one.
-/

namespace Rulebook

/-- What is handed to a combinator. -/
inductive Item where
  /-- Nothing at all. -/
  | missing
  /-- An entry, which may lack its rule. -/
  | entry (name : Bytes) (rule : Option Rule)

namespace Item

/-- A rule as an anonymous item. -/
def ofRule (r : Rule) : Item := .entry [] (some r)

/-- An entry as an item. -/
def ofEntry (e : Entry Rule) : Item := .entry e.name (some e.rule)

/-- The entry that an item stands for. -/
def toEntry : Item → Except Malformation (Entry Rule)
  | missing => .error .missingEntry
  | entry _ none => .error .missingRule
  | entry name (some rule) =>
      if name.isEmpty || isValidName name then .ok ⟨name, rule⟩ else .error (.invalidName name)

/-- The entries that items stand for. The first item that is not right counts. -/
def toEntries : List Item → Except Malformation (List (Entry Rule))
  | [] => .ok []
  | item :: rest =>
      match item.toEntry with
      | .error reason => .error reason
      | .ok e =>
          match toEntries rest with
          | .error reason => .error reason
          | .ok es => .ok (e :: es)

end Item

namespace Rule

/-- Combines items under a combinator. -/
def combineItems (tag : Nat) (how : Combinator) (items : List Item) : Except Malformation Rule :=
  if items.isEmpty then .error .noEntries
  else
    match Item.toEntries items with
    | .error reason => .error reason
    | .ok entries => .ok (.combine tag how entries)

/-- Combines items under the kind with a number. -/
def build (tag : Nat) (code : Int) (items : List Item) : Except Error Rule :=
  match Kind.ofCode? code with
  | some (.combine how) =>
      match combineItems tag how items with
      | .error reason => .error (.malformed code reason)
      | .ok rule => .ok rule
  | _ => .error (.malformed code .notCombinator)

/-- Combines items under a combinator, with the error of its kind. -/
def ofItems (tag : Nat) (how : Combinator) (items : List Item) : Except Error Rule :=
  build tag how.code items

end Rule

end Rulebook

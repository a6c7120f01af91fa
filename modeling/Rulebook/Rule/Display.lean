import Rulebook.Rule
import Rulebook.Text.Quoted

/-!
# Rules in writing

A rule is written as the calls that would build it, such as
`seq("a", digits:oneOrMore(regex("[0-9]")))`.
-/

namespace Rulebook

namespace Rule

mutual

/-- A rule as the calls that build it. -/
def display : Rule → Bytes
  | text _ literal => literal.quote
  | regex _ source => "regex(" ++ source.quote ++ ")"
  | combine _ how entries => how.name ++ "(" ++ Bytes.join ", " (displayEntries entries) ++ ")"

/-- Entries in writing, each with its name before it. -/
def displayEntries : List (Entry Rule) → List Bytes
  | [] => []
  | e :: rest =>
      let label : Bytes := if e.isNamed then e.name ++ ":" else []
      (label ++ e.rule.display) :: displayEntries rest

end

end Rule

end Rulebook

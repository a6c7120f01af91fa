import Rulebook.Pattern.Regex
import Rulebook.Rule

/-!
# Compiled rules

The named pattern of a rule is compiled twice: as it stands, to search for the rule in a text, and
between anchors, to match a whole text. A rule is accepted if both can be compiled.
-/

namespace Rulebook

/-- The two compiled patterns of a rule. -/
structure Compiled where
  /-- Finds the rule anywhere. -/
  search : Pattern.Regex
  /-- Matches the rule against a whole text. -/
  whole : Pattern.Regex

namespace Rule

/-- A pattern that matches whole texts only. -/
def anchor (pattern : Bytes) : Bytes := "^(?:" ++ pattern ++ ")$"

/-- Compiles a rule. -/
def compile (r : Rule) : Except Error Compiled :=
  match Pattern.Regex.ofPattern r.namedPattern with
  | .error e => .error e
  | .ok search =>
      match Pattern.Regex.ofPattern (anchor r.namedPattern) with
      | .error e => .error e
      | .ok whole => .ok ⟨search, whole⟩

end Rule

end Rulebook

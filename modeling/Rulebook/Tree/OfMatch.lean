import Rulebook.Rule.Matcher
import Rulebook.Tree

/-!
# Trees of matches

A rule yields one tree for each of its matches in a text. The named entries of the rule become the
parts of the tree: the text that an entry's group took is matched again, as a whole, by the entry's
own rule, and so on downwards. A rule that looks at what stands around it may refuse the text that
its group took; its node then has no parts.
-/

namespace Rulebook

namespace Matcher

/-- Finds the parts of the tree for a match. -/
abbrev Parts := Pattern.Regex → Pattern.Program.Found → Except Error (List Tree)

/-- The tree for a match in a text that starts at an offset. -/
def nodeFor (parts : Parts) (regex : Pattern.Regex) (text : Bytes) (base : Nat)
    (found : Pattern.Program.Found) : Except Error Tree :=
  match parts regex found with
  | .error e => .error e
  | .ok children =>
      .ok (.node [] (text.slice found.start found.finish) (base + found.start : Nat) children)

/-- The tree for a span that is matched as a whole. -/
def spanNode (parts : Parts) (compiled : Except Error Compiled) (span : Bytes) (offset : Nat) :
    Except Error Tree :=
  match compiled with
  | .error e => .error e
  | .ok c =>
      match c.whole.find? span with
      | none => .ok (.node [] span offset [])
      | some found => nodeFor parts c.whole span offset found

/-- Where the group of a name lies in a match, if it took part. -/
def spanOf? (regex : Pattern.Regex) (found : Pattern.Program.Found) (name : Bytes) :
    Option (Nat × Nat) :=
  (regex.groupNumber? name).bind found.group?

mutual

/-- The tree for a span that the group of an entry took. -/
def descend (span : Bytes) (offset : Nat) : Matcher → Except Error Tree
  | mk compiled entries =>
      spanNode (fun regex found => partsFor regex found span offset entries) compiled.get span
        offset

/-- The parts of the tree for a match. An entry is left out if its group took no part. -/
def partsFor (regex : Pattern.Regex) (found : Pattern.Program.Found) (text : Bytes) (base : Nat) :
    List (Entry Matcher) → Except Error (List Tree)
  | [] => .ok []
  | e :: rest =>
      match spanOf? regex found e.name with
      | none => partsFor regex found text base rest
      | some (start, stop) =>
          match e.rule.descend (text.slice start stop) (base + start) with
          | .error err => .error err
          | .ok part =>
              match partsFor regex found text base rest with
              | .error err => .error err
              | .ok parts => .ok (part.rename e.name :: parts)

end

/-- The trees of some matches, up to the first error. -/
def treesFor (m : Matcher) (regex : Pattern.Regex) (text : Bytes) :
    List Pattern.Program.Found → List (Except Error Tree)
  | [] => []
  | found :: rest =>
      match nodeFor (partsFor · · text 0 m.entries) regex text 0 found with
      | .error e => [.error e]
      | .ok tree => .ok tree :: treesFor m regex text rest

/-- One tree for each match in a text, in order. An error ends the list. -/
def trees (m : Matcher) (text : Bytes) : List (Except Error Tree) :=
  match m.compiled with
  | .error e => [.error e]
  | .ok c => treesFor m c.search text (c.search.findAll text)

end Matcher

namespace Rule

/-- One tree for each match of a rule in a text, in order. An error ends the list. -/
def trees (r : Rule) (text : Bytes) : List (Except Error Tree) := r.matcher.trees text

/-- All trees of a rule in a text. -/
def parse (r : Rule) (text : Bytes) : Except Error (List Tree) := (r.trees text).mapM id

end Rule

end Rulebook

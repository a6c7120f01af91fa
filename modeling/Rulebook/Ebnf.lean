import Rulebook.Registry
import Rulebook.Text.Quoted

/-!
# Extended Backus-Naur form

A registry as a grammar with one production for each rule. A text leaf is the token of its text and
a regex leaf the token of its pattern between slashes. An entry whose rule is registered is a
reference to it. Whether a repetition is lazy does not show.
-/

namespace Rulebook

/-- The right side of a production. -/
inductive Ebnf where
  /-- A token. -/
  | token (text : Bytes)
  /-- The production with a name. -/
  | reference (name : Bytes)
  /-- The parts one after another. -/
  | seq (parts : List Ebnf)
  /-- One of the alternatives. -/
  | choice (alternatives : List Ebnf)
  /-- A part in parentheses. -/
  | group (body : Ebnf)
  /-- A part that may be left out. -/
  | option (body : Ebnf)
  /-- A part any number of times. -/
  | repetition (body : Ebnf)

namespace Ebnf

/-! ## From rules -/

/-- The name by which an entry refers to a registered rule: its own name if that stands for the
    entry's rule, else the first name that does. -/
def referent? (registry : Registry) (e : Entry Rule) : Option Bytes :=
  if e.isNamed && registry.get? e.name == some e.rule then some e.name
  else registry.nameOf? e.rule

/-- A combination of parts. At the root of a production no parentheses are needed. -/
def combine (root : Bool) (how : Combinator) (parts : List Ebnf) : Ebnf :=
  match how with
  | .seq => if !root && 1 < parts.length then .group (.seq parts) else .seq parts
  | .oneOf => if root then .choice parts else .group (.choice parts)
  | .optional => .option (.seq parts)
  | .zeroOrMore _ => .repetition (.seq parts)
  | .oneOrMore _ =>
      let once : Ebnf := if 1 < parts.length then .group (.seq parts) else .seq parts
      .seq [once, .repetition (.seq parts)]

mutual

/-- A rule as the right side of a production. -/
def ofRule (registry : Registry) (root : Bool) : Rule → Ebnf
  | .text _ literal => .token literal
  | .regex _ source => .token ("/" ++ source ++ "/")
  | .combine _ how entries =>
      combine root how (ofEntries registry (how == .oneOf) entries)

/-- Entries as parts of the right side of a production. An alternative stands by itself and so
    counts as a root. -/
def ofEntries (registry : Registry) (root : Bool) : List (Entry Rule) → List Ebnf
  | [] => []
  | e :: rest =>
      let part : Ebnf :=
        match referent? registry e with
        | some name => .reference name
        | none => ofRule registry root e.rule
      part :: ofEntries registry root rest

end

/-! ## References -/

mutual

/-- The names that a right side refers to. -/
def references : Ebnf → List Bytes
  | token _ => []
  | reference name => [name]
  | seq parts => referencesOf parts
  | choice alternatives => referencesOf alternatives
  | group body => body.references
  | option body => body.references
  | repetition body => body.references

/-- The names that parts refer to. -/
def referencesOf : List Ebnf → List Bytes
  | [] => []
  | part :: rest => part.references ++ referencesOf rest

end

/-! ## Rendering -/

mutual

/-- A right side in writing, with the names of productions under a spelling. -/
def render (spell : Bytes → Bytes) : Ebnf → Bytes
  | token text => text.quote
  | reference name => spell name
  | seq parts => Bytes.join " " (renderAll spell parts)
  | choice alternatives => Bytes.join " | " (renderAll spell alternatives)
  | group body => "(" ++ body.render spell ++ ")"
  | option body => "[ " ++ body.render spell ++ " ]"
  | repetition body => "\x7b " ++ body.render spell ++ " \x7d"

/-- Parts in writing. -/
def renderAll (spell : Bytes → Bytes) : List Ebnf → List Bytes
  | [] => []
  | part :: rest => part.render spell :: renderAll spell rest

end

/-- A production in writing. -/
def renderProduction (spell : Bytes → Bytes) (name : Bytes) (body : Ebnf) : Bytes :=
  spell name ++ " = " ++ body.render spell ++ " ."

end Ebnf

namespace Registry

/-- The productions of a registry, one for each rule in order. -/
def productions (r : Registry) : List (Entry Ebnf) :=
  r.entries.map fun e => ⟨e.name, Ebnf.ofRule r true e.rule⟩

/-- Some rules of a registry in extended Backus-Naur form, one production a line, with their names
    under a spelling. -/
def render (r : Registry) (spell : Bytes → Bytes) (names : List Bytes) : Bytes :=
  Bytes.join "\n" (names.filterMap fun name =>
    (r.get? name).map fun rule => Ebnf.renderProduction spell name (Ebnf.ofRule r true rule))

/-- The registry in extended Backus-Naur form. -/
def ebnf (r : Registry) : Bytes := r.render id r.names

end Registry

end Rulebook

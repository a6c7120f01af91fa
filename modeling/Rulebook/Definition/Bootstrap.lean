import Rulebook.Registry

/-!
# The grammar of definitions

Rules are defined in lines such as `number = digit+ ("." digit+)? ;`. The grammar of such lines is
itself a registry of rules. Groups nest only to a fixed depth, because a rule cannot refer to
itself: each level is built from the tokens of the level below.

What a compiler of definitions relies on are these rules and the names of their entries:

* `line`: `comment` or `ruleEntry`
* `comment`: `content`
* `ruleEntry`: `name`, `value`
* `token`: `atom`, which is a `group` or a `literal`, and `suffix`
* `group`: `alternatives`
* `literal`: `text`, `pattern` or `bare`
* `alternative`: `sequence`
* `name`: the name of a rule, which tells references from other bare text
-/

namespace Rulebook

namespace Bootstrap

/-- How deep groups may nest. -/
def maxDepth : Nat := 4

/-- The tag of the rules of this grammar. -/
def tag : Nat := 1

/-- An anonymous entry. -/
def item (r : Rule) : Entry Rule := ⟨[], r⟩

/-- A leaf with a pattern. -/
def regex (source : Bytes) : Rule := .regex tag source

/-- A leaf with a text. -/
def text (literal : Bytes) : Rule := .text tag literal

/-- Entries one after another. -/
def seq (entries : List (Entry Rule)) : Rule := .combine tag .seq entries

/-- The first entry that matches. -/
def oneOf (entries : List (Entry Rule)) : Rule := .combine tag .oneOf entries

/-- A rule that may be left out. -/
def optional (r : Rule) : Rule := .combine tag .optional [item r]

/-- Entries any number of times. -/
def many (entries : List (Entry Rule)) : Rule := .combine tag (.zeroOrMore false) entries

/-- A rule without its names. -/
def leaf (r : Rule) : Rule := r.asLeaf tag

def blank : Rule := regex "[ \\t]"

def space : Rule := .combine tag (.oneOrMore false) [item blank]

def optSpace : Rule := many [item blank]

def lineStart : Rule := regex "(?m:^)"

def lineEnd : Rule := regex "\\r?\\n|\\z"

def letter : Rule := regex "[a-zA-Z]"

def digit : Rule := regex "[0-9]"

def underscore : Rule := text "_"

/-- The name of a rule. -/
def name : Rule :=
  seq [item (oneOf [item letter, item underscore]),
    item (many [item (oneOf [item letter, item digit, item underscore])])]

/-- A text in double quotes. -/
def quotedText : Rule := regex "\"(?:[^\"\\\\\\r\\n]|\\\\.)*\""

/-- A pattern in single quotes. -/
def quotedPattern : Rule := regex "'(?:[^'\\\\\\r\\n]|\\\\.)*'"

/-- A text without quotes. -/
def bare : Rule := regex "[^\\s\"'()|?*+;]+"

/-- What a token is made of if it is not a group. -/
def literal : Rule :=
  oneOf [⟨"text", quotedText⟩, ⟨"pattern", quotedPattern⟩, ⟨"bare", bare⟩]

/-- What may follow a token to repeat it. -/
def suffix : Rule :=
  oneOf [item (text "*?"), item (text "+?"), item (text "?"), item (text "*"), item (text "+")]

/-- Any literal, without names. -/
def anyLiteral : Rule := leaf literal

/-- A suffix that may be left out. -/
def optSuffix : Rule := optional suffix

/-- One or more of a rule with blanks between them. -/
def sequenceOf (t : Rule) : Rule := seq [item t, item (many [item space, item t])]

/-- What stands between the parts of a group. -/
def separator : Rule :=
  oneOf [item (seq [item optSpace, item (text "|"), item optSpace]), item space]

/-- One or more sequences of a rule with bars between them. -/
def alternativesOf (t : Rule) : Rule := seq [item t, item (many [item separator, item t])]

/-- A group of alternatives of a rule. -/
def groupOf (t : Rule) : Rule :=
  seq [item (text "("), item optSpace, item (alternativesOf t), item optSpace, item (text ")")]

/-- A token with groups in it up to a depth. -/
def tokenAt : Nat → Rule
  | 0 => seq [item anyLiteral, item optSuffix]
  | depth + 1 =>
      seq [item (oneOf [item (groupOf (tokenAt depth)), item anyLiteral]), item optSuffix]

/-- A token inside a group. -/
def innerToken : Rule := tokenAt (maxDepth - 1)

def group : Rule :=
  seq [item (text "("), item optSpace, ⟨"alternatives", leaf (alternativesOf innerToken)⟩,
    item optSpace, item (text ")")]

def atom : Rule := oneOf [⟨"group", group⟩, ⟨"literal", literal⟩]

def token : Rule := seq [⟨"atom", atom⟩, ⟨"suffix", optional suffix⟩]

def value : Rule := sequenceOf (leaf token)

def alternative : Rule :=
  seq [⟨"sequence", leaf (sequenceOf innerToken)⟩, item optSpace, item (optional (text "|")),
    item optSpace]

def comment : Rule :=
  seq [item lineStart, item optSpace, item (text "#"), ⟨"content", regex "[^\\r\\n]*"⟩,
    item lineEnd]

def ruleEntry : Rule :=
  seq [item lineStart, item optSpace, ⟨"name", name⟩, item optSpace, item (text "="),
    item optSpace, ⟨"value", value⟩, item optSpace, item (text ";"), item optSpace, item lineEnd]

def line : Rule := oneOf [⟨"comment", comment⟩, ⟨"ruleEntry", ruleEntry⟩]

end Bootstrap

/-- The grammar of definitions. -/
def Registry.bootstrap : Registry :=
  ⟨[⟨"name", Bootstrap.name⟩,
    ⟨"text", Bootstrap.quotedText⟩,
    ⟨"pattern", Bootstrap.quotedPattern⟩,
    ⟨"bare", Bootstrap.bare⟩,
    ⟨"literal", Bootstrap.literal⟩,
    ⟨"suffix", Bootstrap.suffix⟩,
    ⟨"group", Bootstrap.group⟩,
    ⟨"atom", Bootstrap.atom⟩,
    ⟨"token", Bootstrap.token⟩,
    ⟨"value", Bootstrap.value⟩,
    ⟨"alternative", Bootstrap.alternative⟩,
    ⟨"comment", Bootstrap.comment⟩,
    ⟨"ruleEntry", Bootstrap.ruleEntry⟩,
    ⟨"line", Bootstrap.line⟩]⟩

end Rulebook

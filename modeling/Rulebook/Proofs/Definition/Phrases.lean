import Rulebook.Proofs.Definition.Cutting

/-!
# Definitions as they are read plainly

The grammar of definitions by itself, without the rules that recognise it: which characters spell a
literal, a token, a group and a definition, and which rule each of them stands for. A definition is

    B* name B* '=' B* value B* ';' B*

where `B` is a blank, a value is a row of tokens with blanks between them, and a token is a group or a
literal that a sign may repeat. A group holds rows with bars between them, and groups nest to a depth.
-/

namespace Rulebook

open Bytes

namespace Definition

open Bootstrap (IsSpace Blanks item joined)

/-! ### Phrases -/

/-- A literal: a text with its quotes, a pattern without them, or a word. -/
inductive Literal where
  | text (quoted : List Scalar)
  | pattern (inside : List Scalar)
  | bare (word : List Scalar)

/-- A token: a literal, or a group with its alternatives, and how often it is repeated. -/
inductive Phrase where
  | literal (l : Literal) (sign : Option Combinator)
  | group (rows : List (List Phrase)) (sign : Option Combinator)

/-! ### How they are spelled -/

/-- Characters that may stand between quotes. A backslash makes a mark of a character that could not. -/
inductive Quotable (mark : Nat) : List Scalar → Prop where
  | nil : Quotable mark []
  | plain {s : Scalar} {w : List Scalar} : s.code ∉ [10, 13, mark, 92] → Quotable mark w →
      Quotable mark (s :: w)
  | escaped {backslash s : Scalar} {w : List Scalar} : backslash.code = 92 → s.code ≠ 10 →
      Quotable mark w → Quotable mark (backslash :: s :: w)

/-- A text stands in double quotes, a pattern in single ones, and a word holds no character that has a
    meaning of its own. -/
inductive Literal.Spelled : Literal → List Scalar → Prop where
  | text {left right : Scalar} {inside : List Scalar} : left.code = 34 → Quotable 34 inside →
      right.code = 34 → Spelled (.text (left :: (inside ++ [right]))) (left :: (inside ++ [right]))
  | pattern {left right : Scalar} {inside : List Scalar} : left.code = 39 → Quotable 39 inside →
      right.code = 39 → Spelled (.pattern inside) (left :: (inside ++ [right]))
  | bare {word : List Scalar} : word ≠ [] →
      (∀ s ∈ word, s.code ∉ [9, 10, 12, 13, 32, 34, 39, 40, 41, 42, 43, 59, 63, 124]) →
      Spelled (.bare word) word

/-- The signs that repeat a token. -/
def signOf : Combinator → Option Bytes
  | .optional => some "?"
  | .zeroOrMore false => some "*"
  | .zeroOrMore true => some "*?"
  | .oneOrMore false => some "+"
  | .oneOrMore true => some "+?"
  | .seq => none
  | .oneOf => none

/-- A token may lack a sign. -/
def Signed : Option Combinator → List Scalar → Prop
  | none, w => w = []
  | some how, w => ∃ sign, signOf how = some sign ∧ w.map Scalar.code = sign.map UInt8.toNat

/-- Things one after another, with something between them. -/
inductive Separated {α : Type} (gap : List Scalar → Prop) (spelled : α → List Scalar → Prop) :
    List α → List Scalar → Prop where
  | last {a : α} {w : List Scalar} : spelled a w → Separated gap spelled [a] w
  | next {a : α} {as : List α} {w between rest : List Scalar} : spelled a w → gap between →
      Separated gap spelled as rest → Separated gap spelled (a :: as) (w ++ (between ++ rest))

/-- One or more blanks. -/
def IsGap (w : List Scalar) : Prop := w ≠ [] ∧ ∀ s ∈ w, IsSpace s

/-- A bar among blanks. -/
def IsBar (w : List Scalar) : Prop :=
  ∃ before bar after, w = before ++ bar :: after ∧ (∀ s ∈ before, IsSpace s) ∧ bar.code = 124 ∧
    ∀ s ∈ after, IsSpace s

/-- Parentheses around something, with blanks on both sides of it. -/
def Enclosed (inside : List Scalar → Prop) (w : List Scalar) : Prop :=
  ∃ left before middle after right, w = left :: (before ++ (middle ++ (after ++ [right]))) ∧
    left.code = 40 ∧ (∀ s ∈ before, IsSpace s) ∧ inside middle ∧ (∀ s ∈ after, IsSpace s) ∧
    right.code = 41

/-- The characters of a token in which groups nest at most to a depth. -/
def Phrase.Spelled : Nat → Phrase → List Scalar → Prop
  | _, .literal l sign, w => ∃ first last, w = first ++ last ∧ l.Spelled first ∧ Signed sign last
  | 0, .group _ _, _ => False
  | depth + 1, .group rows sign, w =>
      ∃ first last, w = first ++ last ∧
        Enclosed (Separated IsBar (Separated IsGap (Spelled depth)) rows) first ∧ Signed sign last

/-- The characters of a row of tokens. -/
abbrev SpelledRow (depth : Nat) : List Phrase → List Scalar → Prop :=
  Separated IsGap (Phrase.Spelled depth)

/-- The characters of the alternatives of a group. -/
abbrev SpelledRows (depth : Nat) : List (List Phrase) → List Scalar → Prop :=
  Separated IsBar (SpelledRow depth)

/-- An identifier starts with a letter or an underscore and goes on with letters, digits and
    underscores. -/
def isIdentifier (word : Bytes) : Bool :=
  isValidName word && word.head?.all fun b => !(48 ≤ b && b ≤ 57)

/-- True of a line that defines a name by a row of tokens. -/
def IsDefinition (l title : Bytes) (row : List Phrase) : Prop :=
  ∃ b₁ b₂ b₃ value b₄ b₅ ending : Bytes,
    l = b₁ ++ (title ++ (b₂ ++ 61 :: (b₃ ++ (value ++ (b₄ ++ 59 :: (b₅ ++ ending)))))) ∧
    (Blanks b₁ ∧ Blanks b₂ ∧ Blanks b₃ ∧ Blanks b₄ ∧ Blanks b₅) ∧ isIdentifier title = true ∧
    SpelledRow Bootstrap.maxDepth row value.scalars ∧ ending ∈ [[], [10], [13, 10]]

/-! ### What they stand for -/

section

variable (registry : Registry) (tag : Nat)

/-- What a literal stands for, which may be nothing: a text that cannot be unquoted and an identifier
    that is not known have no meaning. -/
def Literal.meaning : Literal → Option (Entry Rule)
  | text quoted => (ofScalars quoted).unquote?.map fun value => ⟨[], .text tag value⟩
  | pattern inside => some ⟨[], .regex tag (unescapePattern (ofScalars inside))⟩
  | bare word =>
      if isIdentifier (ofScalars word) then
        (registry.get? (ofScalars word)).map fun rule => ⟨ofScalars word, rule⟩
      else some ⟨[], .text tag (ofScalars word)⟩

/-- An entry with the sign after it. Its name stays outside. -/
def signed : Option Combinator → Entry Rule → Entry Rule
  | none, e => e
  | some how, e => ⟨e.name, .combine tag how [item e.rule]⟩

/-- The rule of an alternative: a single token stands for itself. The names are lost. -/
def rowRule : List (Entry Rule) → Rule
  | [e] => e.rule
  | entries => .combine tag .seq (entries.map fun e => item e.rule)

mutual

/-- What a token stands for. -/
def Phrase.meaning : Phrase → Option (Entry Rule)
  | literal l sign => (l.meaning registry tag).map (signed tag sign)
  | group rows sign =>
      (rowsMeaning rows).map fun rules => signed tag sign (item (.combine tag .oneOf (rules.map item)))

/-- What the alternatives of a group stand for. -/
def Phrase.rowsMeaning : List (List Phrase) → Option (List Rule)
  | [] => some []
  | row :: rows => do
      let entries ← rowMeaning row
      let rules ← rowsMeaning rows
      pure (rowRule tag entries :: rules)

/-- What the tokens of a row stand for. -/
def Phrase.rowMeaning : List Phrase → Option (List (Entry Rule))
  | [] => some []
  | p :: ps => do
      let entry ← p.meaning
      let entries ← rowMeaning ps
      pure (entry :: entries)

end

/-- The rule that a row defines. -/
def valueRule (row : List Phrase) : Option Rule :=
  (Phrase.rowMeaning registry tag row).map (.combine tag .seq)

end

end Definition

end Rulebook

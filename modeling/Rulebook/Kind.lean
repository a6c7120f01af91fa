import Rulebook.Text.Bytes

/-!
# Kinds of rules

A rule is a leaf, which carries a pattern or a literal text, or it combines other rules. The kinds
are numbered, and a number that stands for no kind still has a name.
-/

namespace Rulebook

/-- How a rule combines its entries. -/
inductive Combinator where
  /-- The entries one after another. -/
  | seq
  /-- The first of the entries that matches. -/
  | oneOf
  /-- The sequence of the entries at most once. -/
  | optional
  /-- The sequence of the entries any number of times, as few as possible if lazy. -/
  | zeroOrMore (lazy : Bool)
  /-- The sequence of the entries at least once, as few times as possible if lazy. -/
  | oneOrMore (lazy : Bool)
  deriving DecidableEq, Repr

namespace Combinator

/-- The name of a combinator. -/
def name : Combinator → Bytes
  | seq => "seq"
  | oneOf => "oneOf"
  | optional => "optional"
  | zeroOrMore false => "zeroOrMore"
  | zeroOrMore true => "lazyZeroOrMore"
  | oneOrMore false => "oneOrMore"
  | oneOrMore true => "lazyOneOrMore"

/-- The number of a combinator. -/
def code : Combinator → Nat
  | seq => 2
  | oneOf => 3
  | optional => 4
  | zeroOrMore false => 5
  | zeroOrMore true => 6
  | oneOrMore false => 7
  | oneOrMore true => 8

/-- What a combinator writes between its entries. -/
def separator : Combinator → Bytes
  | oneOf => "|"
  | _ => []

/-- What a combinator writes after its group. -/
def quantifier : Combinator → Bytes
  | seq => []
  | oneOf => []
  | optional => "?"
  | zeroOrMore false => "*"
  | zeroOrMore true => "*?"
  | oneOrMore false => "+"
  | oneOrMore true => "+?"

end Combinator

/-- The kind of a rule. -/
inductive Kind where
  /-- A leaf with a pattern. -/
  | regex
  /-- A leaf with a literal text. -/
  | text
  /-- A combination of entries. -/
  | combine (how : Combinator)
  deriving DecidableEq, Repr

namespace Kind

/-- True of the kinds that have no entries. -/
def isLeaf : Kind → Bool
  | combine _ => false
  | _ => true

/-- The name of a kind. -/
def name : Kind → Bytes
  | regex => "regex"
  | text => "text"
  | combine how => how.name

/-- The number of a kind. -/
def code : Kind → Nat
  | regex => 0
  | text => 1
  | combine how => how.code

/-- All kinds, each at the place of its number. -/
def all : List Kind :=
  [regex, text, combine .seq, combine .oneOf, combine .optional, combine (.zeroOrMore false),
    combine (.zeroOrMore true), combine (.oneOrMore false), combine (.oneOrMore true)]

/-- The kind with a number. -/
def ofCode? : Int → Option Kind
  | .ofNat n => all[n]?
  | .negSucc _ => none

/-- The kind with a name. -/
def ofName? (name : Bytes) : Option Kind := all.find? (·.name == name)

/-- What a number is called, whether it stands for a kind or not. -/
def nameOfCode (code : Int) : Bytes :=
  match ofCode? code with
  | some kind => kind.name
  | none => "Kind(" ++ Bytes.integer code ++ ")"

theorem ofCode?_code (k : Kind) : ofCode? k.code = some k := by
  cases k with
  | regex => rfl
  | text => rfl
  | combine how =>
      cases how with
      | zeroOrMore isLazy => cases isLazy <;> rfl
      | oneOrMore isLazy => cases isLazy <;> rfl
      | _ => rfl

end Kind

end Rulebook

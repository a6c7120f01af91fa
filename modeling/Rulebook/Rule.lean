import Rulebook.Kind

/-!
# Rules

A rule is a leaf or a combination of entries, each of which pairs a rule with a name that may be
empty. From a rule follow two patterns: one in which every named entry is a named group, and one in
which every group is without a name.

Two rules of the same shape can be different rules. What sets them apart is their tag, which
whoever builds a rule chooses; `Rule.shape` forgets the tags.
-/

namespace Rulebook

/-- A rule with a name, which is empty if the entry is anonymous. -/
structure Entry (α : Type) where
  name : Bytes
  rule : α
  deriving DecidableEq, Repr

/-- True if the entry has a name. -/
def Entry.isNamed {α : Type} (e : Entry α) : Bool := !e.name.isEmpty

/-- A rule: a leaf, or a combination of entries. -/
inductive Rule where
  /-- A leaf that matches a pattern. -/
  | regex (tag : Nat) (source : Bytes)
  /-- A leaf that matches a text as it stands. -/
  | text (tag : Nat) (literal : Bytes)
  /-- A combination of entries. -/
  | combine (tag : Nat) (how : Combinator) (entries : List (Entry Rule))

/-- A name can be given to an entry or a rule if it is not empty and holds only letters, digits and
    underscores of ASCII. -/
def isValidName (name : Bytes) : Bool := !name.isEmpty && name.all Bytes.isWord

namespace Rule

/-- What sets the rule apart from others of its shape. -/
def tag : Rule → Nat
  | regex tag _ => tag
  | text tag _ => tag
  | combine tag _ _ => tag

/-- The kind of a rule. -/
def kind : Rule → Kind
  | regex _ _ => .regex
  | text _ _ => .text
  | combine _ how _ => .combine how

/-- The pattern or the literal text of a leaf. -/
def source : Rule → Bytes
  | regex _ source => source
  | text _ literal => literal
  | combine _ _ _ => []

/-- The entries of a combination. -/
def entries : Rule → List (Entry Rule)
  | combine _ _ entries => entries
  | _ => []

/-! ## Equality -/

mutual

/-- Compares two rules, their tags first. -/
def beq : Rule → Rule → Bool
  | regex s a, regex t b => s == t && a == b
  | text s a, text t b => s == t && a == b
  | combine s f as, combine t g bs => s == t && f == g && beqEntries as bs
  | _, _ => false

/-- Compares two lists of entries. -/
def beqEntries : List (Entry Rule) → List (Entry Rule) → Bool
  | [], [] => true
  | a :: as, b :: bs => a.name == b.name && beq a.rule b.rule && beqEntries as bs
  | _, _ => false

end

mutual

theorem eq_of_beq : ∀ {a b : Rule}, beq a b = true → a = b
  | regex .., regex .., h => by simp_all [beq]
  | text .., text .., h => by simp_all [beq]
  | combine _ _ as, combine _ _ bs, h => by
      simp only [beq, Bool.and_eq_true, beq_iff_eq] at h
      simp [h.1.1, h.1.2, eq_of_beqEntries h.2]
  | regex .., text .., h => by simp [beq] at h
  | regex .., combine .., h => by simp [beq] at h
  | text .., regex .., h => by simp [beq] at h
  | text .., combine .., h => by simp [beq] at h
  | combine .., regex .., h => by simp [beq] at h
  | combine .., text .., h => by simp [beq] at h

theorem eq_of_beqEntries : ∀ {as bs : List (Entry Rule)}, beqEntries as bs = true → as = bs
  | [], [], _ => rfl
  | ⟨_, _⟩ :: _, ⟨_, _⟩ :: _, h => by
      simp only [beqEntries, Bool.and_eq_true, beq_iff_eq] at h
      simp [h.1.1, eq_of_beq h.1.2, eq_of_beqEntries h.2]
  | [], _ :: _, h => by simp [beqEntries] at h
  | _ :: _, [], h => by simp [beqEntries] at h

end

mutual

theorem beq_refl : ∀ a : Rule, beq a a = true
  | regex .. => by simp [beq]
  | text .. => by simp [beq]
  | combine _ _ as => by simp [beq, beqEntries_refl as]

theorem beqEntries_refl : ∀ as : List (Entry Rule), beqEntries as as = true
  | [] => by simp [beqEntries]
  | ⟨_, r⟩ :: as => by simp [beqEntries, beq_refl r, beqEntries_refl as]

end

instance : DecidableEq Rule := fun a b =>
  if h : beq a b = true then isTrue (eq_of_beq h)
  else isFalse fun e => h (e ▸ beq_refl a)

mutual

/-- The rule with all tags forgotten. -/
def shape : Rule → Rule
  | regex _ source => regex 0 source
  | text _ literal => text 0 literal
  | combine _ how entries => combine 0 how (shapes entries)

/-- The entries with all tags forgotten. -/
def shapes : List (Entry Rule) → List (Entry Rule)
  | [] => []
  | ⟨name, rule⟩ :: rest => ⟨name, rule.shape⟩ :: shapes rest

end

/-! ## Patterns -/

/-- The bytes that have a meaning of their own in a pattern. -/
def isMeta (b : UInt8) : Bool := ("\\.+*?()|[]\x7b\x7d^$" : Bytes).contains b

/-- The pattern that matches a text as it stands. -/
def escape (literal : Bytes) : Bytes := literal.flatMap fun b => if isMeta b then [92, b] else [b]

/-- An entry inside a larger pattern, given the pattern of its rule. A name makes a group. A raw
    pattern without a name gets a group that is not counted, because it may hold alternatives. -/
def embed (named : Bool) (name : Bytes) (kind : Kind) (pattern : Bytes) : Bytes :=
  if !name.isEmpty then
    if named then "(?P<" ++ name ++ ">" ++ pattern ++ ")" else "(" ++ pattern ++ ")"
  else if kind == .regex then "(?:" ++ pattern ++ ")"
  else pattern

mutual

/-- The pattern of a rule, with or without the names of its entries. -/
def assemble (named : Bool) : Rule → Bytes
  | regex _ source => source
  | text _ literal => escape literal
  | combine _ how entries =>
      "(" ++ Bytes.join how.separator (assembleEntries named entries) ++ ")" ++ how.quantifier

/-- The patterns of entries as they stand inside the pattern of a combination. -/
def assembleEntries (named : Bool) : List (Entry Rule) → List Bytes
  | [] => []
  | e :: rest =>
      embed named e.name e.rule.kind (assemble named e.rule) :: assembleEntries named rest

end

/-- The pattern in which no group has a name. -/
def pattern (r : Rule) : Bytes := r.assemble false

/-- The pattern in which every named entry is a named group. -/
def namedPattern (r : Rule) : Bytes := r.assemble true

/-- A leaf that matches the same texts and has no named entries, so that it can stand more than once
    in one rule. -/
def asLeaf (tag : Nat) (r : Rule) : Rule := regex tag r.pattern

end Rule

end Rulebook

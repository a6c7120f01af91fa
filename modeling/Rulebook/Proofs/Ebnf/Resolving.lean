import Mathlib.Order.Bounds.Defs
import Rulebook.Proofs.Ebnf.Verifying

/-!
# The names that are verified are the least closed set

An entry whose rule is registered is rendered as a reference, and any other entry is written out.
So what the production of a name refers to can be said of its rule (`Registry.Mentions`), and a set
of names is closed if it has everything that must be verified and everything that its names mention.

The names that are verified are the least such set, in the order of the registry. In their rendering
every reference therefore has a production (`Registry.verified_is_least`).
-/

namespace Rulebook

namespace Registry

open Complaint

/-! ## What a rule mentions -/

/-- True of a name that the right side of a rule refers to. -/
inductive Mentions (r : Registry) : Rule → Bytes → Prop
  /-- An entry under whose own name its rule is registered refers to that name. -/
  | own {tag : Nat} {how : Combinator} {entries : List (Entry Rule)} {e : Entry Rule}
      (here : e ∈ entries) (named : e.name ≠ []) (known : r.get? e.name = some e.rule) :
      Mentions r (.combine tag how entries) e.name
  /-- Any other entry refers to the first name of its rule. -/
  | first {tag : Nat} {how : Combinator} {entries : List (Entry Rule)} {e : Entry Rule} {n : Bytes}
      (here : e ∈ entries) (other : e.name = [] ∨ r.get? e.name ≠ some e.rule)
      (known : r.nameOf? e.rule = some n) : Mentions r (.combine tag how entries) n
  /-- An entry whose rule has no name is written out. -/
  | inner {tag : Nat} {how : Combinator} {entries : List (Entry Rule)} {e : Entry Rule} {n : Bytes}
      (here : e ∈ entries) (unknown : ∀ d ∈ r.entries, d.rule ≠ e.rule)
      (below : Mentions r e.rule n) : Mentions r (.combine tag how entries) n

variable {r : Registry} {start : Bytes} {base : List Bytes}

theorem nameOf?_eq_none_iff {rule : Rule} :
    r.nameOf? rule = none ↔ ∀ d ∈ r.entries, d.rule ≠ rule := by
  rw [nameOf?, Option.map_eq_none_iff, List.find?_eq_none]
  simp

theorem isNamed_iff {e : Entry Rule} : e.isNamed = true ↔ e.name ≠ [] := by
  rw [Entry.isNamed, Bool.not_eq_true', List.isEmpty_eq_false_iff]

/-- An entry is written out if its rule has no name. -/
theorem referent?_eq_none_iff {e : Entry Rule} :
    Ebnf.referent? r e = none ↔ ∀ d ∈ r.entries, d.rule ≠ e.rule := by
  rw [← nameOf?_eq_none_iff, Ebnf.referent?]
  by_cases own : (e.isNamed && r.get? e.name == some e.rule) = true
  · rw [if_pos own]
    rw [Bool.and_eq_true, beq_iff_eq] at own
    have known : r.nameOf? e.rule ≠ none := fun none =>
      nameOf?_eq_none_iff.1 none _ (mem_of_get? own.2) rfl
    exact iff_of_false (Option.some_ne_none _) known
  · rw [if_neg own]

theorem mentions_of_referent? {tag : Nat} {how : Combinator} {entries : List (Entry Rule)}
    {e : Entry Rule} {n : Bytes} (here : e ∈ entries) (refers : Ebnf.referent? r e = some n) :
    r.Mentions (.combine tag how entries) n := by
  rw [Ebnf.referent?] at refers
  by_cases own : e.isNamed = true ∧ r.get? e.name = some e.rule
  · rw [if_pos (by simpa using own)] at refers
    cases refers
    exact .own here (isNamed_iff.1 own.1) own.2
  · rw [if_neg (by simpa using own)] at refers
    rw [isNamed_iff, not_and_or, not_not] at own
    exact .first here own refers

/-- The right side of a rule refers to what the rule mentions. -/
theorem mem_references_iff {root : Bool} {rule : Rule} {n : Bytes} :
    n ∈ (Ebnf.ofRule r root rule).references ↔ r.Mentions rule n := by
  constructor
  · intro mem
    induction rule using Rule.of_entries generalizing root with
    | step rule ih =>
    cases rule with
    | text tag literal => cases mem
    | regex tag source => cases mem
    | combine tag how entries =>
      rw [Ebnf.ofRule, Ebnf.references_combine] at mem
      rcases Ebnf.mem_referencesOf_ofEntries.1 mem with ⟨e, here, refers | ⟨none, below⟩⟩
      · exact mentions_of_referent? here refers
      · exact .inner here (referent?_eq_none_iff.1 none) (ih e here below)
  · intro mentions
    induction mentions generalizing root with
    | @own tag how entries e here named known =>
      have refers : Ebnf.referent? r e = some e.name := by
        rw [Ebnf.referent?, if_pos (by simp [isNamed_iff.2 named, known])]
      rw [Ebnf.ofRule, Ebnf.references_combine]
      exact Ebnf.mem_referencesOf_ofEntries.2 ⟨e, here, .inl refers⟩
    | @first tag how entries e n here other known =>
      have refers : Ebnf.referent? r e = some n := by
        rw [Ebnf.referent?, if_neg, known]
        rw [Bool.and_eq_true, beq_iff_eq, isNamed_iff, not_and_or, not_not]
        exact other
      rw [Ebnf.ofRule, Ebnf.references_combine]
      exact Ebnf.mem_referencesOf_ofEntries.2 ⟨e, here, .inl refers⟩
    | @inner tag how entries e n here unknown _ ih =>
      rw [Ebnf.ofRule, Ebnf.references_combine]
      exact Ebnf.mem_referencesOf_ofEntries.2 ⟨e, here, .inr ⟨referent?_eq_none_iff.2 unknown, ih⟩⟩

/-- The production of a name refers to what its rule mentions. -/
theorem Orderly.refers_iff_mentions (orderly : r.Orderly) {a n : Bytes} :
    r.references.Refers a n ↔ ∃ rule, r.get? a = some rule ∧ r.Mentions rule n := by
  constructor
  · intro refers
    have registered : a ∈ r.names := by
      rcases refers with ⟨refs, edge, -⟩
      rw [← fst_references]
      exact List.mem_map_of_mem edge
    rcases List.mem_map.1 registered with ⟨e, here, rfl⟩
    exact ⟨e.rule, orderly.get?_eq here, mem_references_iff.1 ((orderly.refers_iff here).1 refers)⟩
  · rintro ⟨rule, found, mentions⟩
    exact (orderly.refers_iff (mem_of_get? found)).2 (mem_references_iff.2 mentions)

/-! ## Closed sets -/

/-- True of a set of registered names that has all names which are not in the base, the start, and
    what the rules of its names mention. -/
structure IsClosed (r : Registry) (start : Bytes) (base : List Bytes) (names : Set Bytes) :
    Prop where
  registered : ∀ n ∈ names, n ∈ r.names
  outside : ∀ n ∈ r.names, n ∉ base → n ∈ names
  start : start ∈ r.names → start ∈ names
  mentioned : ∀ n ∈ names, ∀ rule, r.get? n = some rule → ∀ m, r.Mentions rule m → m ∈ names

theorem Orderly.isClosed_verified (orderly : r.Orderly) (start : Bytes) (base : List Bytes) :
    r.IsClosed start base {n | n ∈ r.verified start base} where
  registered _ mem := (mem_verified.1 mem).1
  outside n registered out := mem_verified.2 ⟨registered, n, registered, .inr out, .refl⟩
  start := start_mem_verified
  mentioned _ mem rule found _ mentions :=
    mem_verified_of_refers mem (orderly.refers_iff_mentions.2 ⟨rule, found, mentions⟩)

/-- Names that can be reached stay within a closed set. -/
theorem IsClosed.mem_of_reaches (orderly : r.Orderly) {names : Set Bytes}
    (closed : r.IsClosed start base names) {s n : Bytes} (mem : s ∈ names) (path : r.Reaches s n) :
    n ∈ names := by
  induction path with
  | refl => exact mem
  | tail _ refers ih =>
    rcases orderly.refers_iff_mentions.1 refers with ⟨rule, found, mentions⟩
    exact closed.mentioned _ ih rule found _ mentions

theorem IsClosed.mem_of_mem_verified (orderly : r.Orderly) {names : Set Bytes}
    (closed : r.IsClosed start base names) {n : Bytes} (mem : n ∈ r.verified start base) :
    n ∈ names := by
  rcases mem_verified.1 mem with ⟨-, s, registered, rfl | out, path⟩
  · exact closed.mem_of_reaches orderly (closed.start registered) path
  · exact closed.mem_of_reaches orderly (closed.outside s registered out) path

/-! ## The names that are verified -/

/-- What the names that are verified are, for a start and a base. -/
structure VerifiesLeast (r : Registry) (start : Bytes) (base : List Bytes) : Prop where
  /-- They stand in the order of the registry. -/
  ordered : (r.verified start base).Sublist r.names
  /-- No name stands twice. -/
  distinct : (r.verified start base).Nodup
  /-- They are the least closed set. -/
  least : IsLeast {names | r.IsClosed start base names} {n | n ∈ r.verified start base}
  /-- Their rendering is read as one production for each name, and each reference in it is the name
      of one of the productions. -/
  resolved : ∃ ps, Bnf.read (r.render label (r.verified start base)) = some ps ∧
    ps.map Bnf.Production.name = (r.verified start base).map label ∧
    ∀ p ∈ ps, ∀ x ∈ p.references, x ∈ ps.map Bnf.Production.name

/-- The names that are verified are the least closed set, in order. -/
theorem verified_is_least (built : r.Built) (start : Bytes) (base : List Bytes) :
    VerifiesLeast r start base := by
  have orderly := built.orderly
  constructor
  · exact verified_sublist
  · exact orderly.nodup.sublist verified_sublist
  · constructor
    · exact orderly.isClosed_verified start base
    · intro names closed n mem
      exact IsClosed.mem_of_mem_verified orderly closed mem
  · rcases orderly.exists_given start base with ⟨es, ps, given, read⟩
    refine ⟨ps, read, given.map_name, ?_⟩
    intro p mem x refers
    rcases given.exists_label orderly mem refers with ⟨m, kept, rfl⟩
    exact given.label_mem_iff.2 kept

/-- A sign is in the base, and is verified because numbers refer to it. The digit that numbers are
    built from is not registered any more, so the name of the digit stays out. -/
theorem verified_is_least_sample : Sample.integers.Built ∧
    VerifiesLeast Sample.integers "number" ["digit", "sign"] ∧
    Sample.integers.verified "number" ["digit", "sign"] = ["sign", "integer", "number"] :=
  ⟨Sample.built_integers, verified_is_least Sample.built_integers "number" ["digit", "sign"],
    by decide +kernel⟩

end Registry

end Rulebook

import Rulebook.Proofs.Pattern.Replacing
import Rulebook.Proofs.Registry
import Rulebook.Proofs.Rule.Acceptance

/-!
# The two patterns of a rule

A named entry is a named group in one pattern of a rule and a group without a name in the other, and
there is no other difference: without the names of groups the one pattern is the other
(`Rule.replaceAll_namedPattern`), whatever its literal texts are, since in these each parenthesis is
escaped.
-/

namespace Rulebook

open Bytes

namespace Rule

/-- True of a part of a pattern that becomes another one without the names of groups, wherever it
    stands, unless what follows makes a group of a parenthesis at its end. -/
def Strips (p q : Bytes) : Prop :=
  ∀ k : Bytes, k.head? ≠ some 63 → withoutNames (p ++ k) = q ++ withoutNames k

theorem afterName?_eq_none {k : Bytes} (other : k.head? ≠ some 63) : afterName? k = none := by
  cases after : afterName? k with
  | none => rfl
  | some rest =>
    obtain ⟨name, -, rfl⟩ := afterName?_eq_some.1 after
    exact absurd rfl other

theorem strips_nil : Strips [] [] := fun _ _ => rfl

theorem strips_cons {b : UInt8} (other : b ≠ 40) {p q : Bytes} (strips : Strips p q) :
    Strips (b :: p) (b :: q) := by
  intro k follow
  rw [List.cons_append, withoutNames_other other, strips k follow, List.cons_append]

theorem strips_open {p q : Bytes} (start : p.head? ≠ some 63) (strips : Strips p q) :
    Strips (40 :: p) (40 :: q) := by
  intro k follow
  rw [List.cons_append, withoutNames_open (afterName?_eq_none (head?_append start follow)),
    strips k follow, List.cons_append]

theorem Strips.append {p q p' q' : Bytes} (first : Strips p q) (second : Strips p' q')
    (start : p'.head? ≠ some 63) : Strips (p ++ p') (q ++ q') := by
  intro k follow
  rw [List.append_assoc, first _ (head?_append start follow), second k follow, List.append_assoc]

/-- In a literal text each parenthesis stands behind a backslash, so that no question mark follows
    it. -/
theorem strips_escape (literal : Bytes) : Strips (escape literal) (escape literal) := by
  induction literal with
  | nil => exact strips_nil
  | cons b literal ih =>
    rw [escape_cons]
    by_cases mark : isMeta b = true
    · rw [if_pos mark]
      refine strips_cons (by decide) ?_
      by_cases isOpen : b = 40
      · rw [isOpen]
        exact strips_open (head?_escape literal) ih
      · exact strips_cons isOpen ih
    · rw [if_neg mark]
      refine strips_cons ?_ ih
      rintro rfl
      exact mark (by decide)

/-- The pattern of a leaf that holds no start of a name, at the end of a pattern or before a
    parenthesis. -/
theorem withoutNames_leaf {source : Bytes} (none : ¬ [63, 80, 60] <:+: source) {k : Bytes}
    (follow : k = [] ∨ k.head? = some 41) : withoutNames (source ++ k) = source ++ withoutNames k := by
  refine withoutNames_append source k fun front back eq => ?_
  cases after : afterName? (back ++ k) with
  | none => rfl
  | some rest =>
    obtain ⟨name, -, found⟩ := afterName?_eq_some.1 after
    have found : [63, 80, 60] <+: back ++ k := ⟨name ++ 62 :: rest, by rw [found, List.append_assoc]⟩
    -- the start of the name lies within the leaf, since a parenthesis is no part of it
    have inside : [63, 80, 60] <+: back := by
      rcases follow with rfl | close
      · rwa [List.append_nil] at found
      · obtain ⟨t, rfl⟩ : ∃ t, k = 41 :: t := List.head?_eq_some_iff.1 close
        rcases back with _ | ⟨x, _ | ⟨y, _ | ⟨z, back⟩⟩⟩
        all_goals simp_all [List.cons_prefix_cons]
    rw [eq] at none
    exact absurd (inside.isInfix.trans (List.suffix_append (front ++ [40]) back).isInfix)
      (by rwa [List.append_assoc])

/-- What holds of the two patterns of a rule, before the parenthesis that closes a group. -/
def StripsClosed (r : Rule) : Prop := Strips (assemble true r ++ [41]) (assemble false r ++ [41])

theorem strips_close : Strips [41] [41] := strips_cons (by decide) strips_nil

/-- An entry as it stands in the two patterns of a combination. -/
theorem strips_embed {e : Entry Rule} (valid : e.name = [] ∨ isValidName e.name = true)
    (closed : StripsClosed e.rule)
    (bare : e.rule.kind ≠ .regex → Strips (assemble true e.rule) (assemble false e.rule)) :
    Strips (embed true e.name e.rule.kind (assemble true e.rule))
      (embed false e.name e.rule.kind (assemble false e.rule)) := by
  rw [embed_bytes, embed_bytes]
  by_cases grouped : isGrouped e.name e.rule.kind = true
  · rw [if_pos grouped, if_pos grouped]
    by_cases anonymous : e.name = []
    · rw [anonymous]
      intro k follow
      change withoutNames (40 :: 63 :: 58 :: ((assemble true e.rule ++ [41]) ++ k)) = _
      rw [withoutNames_open rfl, withoutNames_other (by decide), withoutNames_other (by decide),
        closed k follow]
      rfl
    · have some_byte : e.name.isEmpty = false := by simpa using anonymous
      intro k follow
      have named : opening true e.name = Pattern.header e.name := by
        rw [opening, if_neg (by simp [some_byte]), if_pos rfl, Pattern.header]
      have plain : opening false e.name = [40] := by
        rw [opening, if_neg (by simp [some_byte]), if_neg (by decide)]
      rw [named, plain, List.append_assoc,
        Pattern.withoutNames_header (valid.resolve_left anonymous), closed k follow]
      rfl
  · rw [if_neg grouped, if_neg grouped]
    refine bare fun regex => grouped ?_
    rw [isGrouped, regex]
    simp

/-- The patterns of entries one after another, as they stand in a combination. By induction on the
    entries. -/
theorem strips_join (how : Combinator) {entries : List (Entry Rule)}
    (each : ∀ e ∈ entries, Strips (embed true e.name e.rule.kind (assemble true e.rule))
      (embed false e.name e.rule.kind (assemble false e.rule))) :
    Strips (Bytes.join how.separator (assembleEntries true entries))
      (Bytes.join how.separator (assembleEntries false entries)) := by
  rw [separator_bytes]
  by_cases choice : how = .oneOf
  · rw [if_pos choice]
    induction entries with
    | nil => exact strips_nil
    | cons e rest ih =>
      obtain ⟨here, others⟩ := List.forall_mem_cons.1 each
      rw [join_choice, join_choice]
      refine here.append ?_ ?_
      · split
        · exact strips_nil
        · exact strips_cons (by decide) (ih others)
      · split <;> simp
  · rw [if_neg choice, join_seq, join_seq]
    induction entries with
    | nil => exact strips_nil
    | cons e rest ih =>
      obtain ⟨here, others⟩ := List.forall_mem_cons.1 each
      rw [assembleEntries, assembleEntries, List.flatten_cons, List.flatten_cons]
      exact here.append (ih others) (head?_entries true rest)

theorem strips_quantifier (how : Combinator) : Strips how.quantifier how.quantifier := by
  have other : ∀ b ∈ how.quantifier, b ≠ 40 := by
    rw [quantifier_bytes]
    split <;> decide
  generalize how.quantifier = q at other
  induction q with
  | nil => exact strips_nil
  | cons b q ih =>
    obtain ⟨here, others⟩ := List.forall_mem_cons.1 other
    exact strips_cons here (ih others)

/-- The two patterns of a combination. -/
theorem strips_combine (tag : Nat) (how : Combinator) {entries : List (Entry Rule)}
    (each : ∀ e ∈ entries, Strips (embed true e.name e.rule.kind (assemble true e.rule))
      (embed false e.name e.rule.kind (assemble false e.rule))) :
    Strips (assemble true (combine tag how entries)) (assemble false (combine tag how entries)) := by
  rw [assemble_combine, assemble_combine]
  have inner := (strips_join how each).append (strips_cons (by decide) (strips_quantifier how))
    (show (41 :: how.quantifier).head? ≠ some 63 by simp)
  exact strips_open (head?_append_close (head?_join true how entries) _) inner

/-- True of a rule none of whose leaves holds the start of a name. -/
def Markless (r : Rule) : Prop :=
  ∀ e ∈ (⟨[], r⟩ : Entry Rule) :: reach r.entries, ∀ tag source, e.rule = regex tag source →
    ¬ ("?P<" : Bytes) <:+: source

theorem Markless.entry {r : Rule} (markless : Markless r) {e : Entry Rule} (mem : e ∈ r.entries) :
    Markless e.rule := by
  intro d below
  rcases List.mem_cons.1 below with rfl | below
  · exact markless e (List.mem_cons_of_mem _ (mem_reach mem))
  · exact markless d (List.mem_cons_of_mem _ (reach_trans_rule r (mem_reach mem) below))

/-- The two patterns of a rule, by induction on its entries. -/
theorem strips_assemble {r : Rule} (built : r.Built) (markless : Markless r) :
    StripsClosed r ∧ (r.kind ≠ .regex → Strips (assemble true r) (assemble false r)) := by
  have closed {r : Rule} (bare : Strips (assemble true r) (assemble false r)) : StripsClosed r :=
    bare.append strips_close (by simp)
  induction r using of_entries with
  | step r ih =>
  cases r with
  | regex tag source =>
    have none := markless _ (List.mem_cons_self ..) tag source rfl
    refine ⟨fun k _ => ?_, fun other => absurd rfl other⟩
    rw [assemble, assemble, List.append_assoc, List.append_assoc, withoutNames_leaf none (.inr rfl),
      List.singleton_append, withoutNames_other (by decide)]
    rfl
  | text tag literal => exact ⟨closed (strips_escape literal), fun _ => strips_escape literal⟩
  | combine tag how entries =>
    have bare : Strips (assemble true (combine tag how entries))
        (assemble false (combine tag how entries)) := strips_combine tag how fun e mem => by
      obtain ⟨built, valid⟩ := (built_combine_iff.1 built).2 e mem
      obtain ⟨closed, bare⟩ := ih e mem built (markless.entry mem)
      exact strips_embed valid closed bare
    exact ⟨closed bare, fun _ => bare⟩

/-- Without the names of groups the named pattern of a rule is its pattern. -/
theorem withoutNames_namedPattern {r : Rule} (built : r.Built) (markless : Markless r) :
    withoutNames r.namedPattern = r.pattern := by
  by_cases leaf : r.kind = .regex
  · cases r with
    | regex tag source =>
      have whole := withoutNames_leaf (markless _ (List.mem_cons_self ..) tag source rfl) (.inl rfl)
      rwa [List.append_nil, withoutNames, List.append_nil] at whole
    | _ => cases leaf
  · have whole := (strips_assemble built markless).2 leaf [] (by simp)
    rwa [List.append_nil, withoutNames, List.append_nil] at whole

/-- To put a parenthesis in place of each match of the pattern that starts a named group, in the named
    pattern of a rule whose leaves hold no such start, is to have its pattern. -/
theorem replaceAll_namedPattern {r : Rule} (built : r.Built) (markless : Markless r) :
    ∃ names, Pattern.Regex.ofPattern "\\(\\?P<[A-Za-z0-9_]+>" = .ok names ∧
      names.replaceAll "(" r.namedPattern = r.pattern := by
  obtain ⟨names, read, -⟩ := Pattern.ofPattern_groupName
  exact ⟨names, read, by
    rw [Pattern.Regex.replaceAll_names read, withoutNames_namedPattern built markless]⟩

/-- A rule with a literal text that itself spells a named group. -/
theorem replaceAll_spelled :
    (combine 0 .oneOf [⟨"n", text 0 "(?P<n>)"⟩, ⟨[], regex 0 "a|b"⟩]).Built ∧
      Markless (combine 0 .oneOf [⟨"n", text 0 "(?P<n>)"⟩, ⟨[], regex 0 "a|b"⟩]) ∧
      ∃ names, Pattern.Regex.ofPattern "\\(\\?P<[A-Za-z0-9_]+>" = .ok names ∧
        names.replaceAll "(" "((?P<n>\\(\\?P<n>\\))|(?:a|b))" = "((\\(\\?P<n>\\))|(?:a|b))" := by
  have built : (combine 0 .oneOf [⟨"n", text 0 "(?P<n>)"⟩, ⟨[], regex 0 "a|b"⟩]).Built := by
    refine built_combine_iff.2 ⟨List.cons_ne_nil _ _, ?_⟩
    exact List.forall_mem_cons.2 ⟨⟨.text .., .inr (by decide)⟩,
      List.forall_mem_cons.2 ⟨⟨.regex .., .inl rfl⟩, List.forall_mem_nil _⟩⟩
  have markless : Markless (combine 0 .oneOf [⟨"n", text 0 "(?P<n>)"⟩, ⟨[], regex 0 "a|b"⟩]) := by
    intro e mem tag source leaf
    have none : reach [] = [] := rfl
    simp only [reach_cons, entries, none, List.mem_cons, List.nil_append, List.not_mem_nil,
      or_false] at mem
    rcases mem with rfl | rfl | rfl
    · cases leaf
    · cases leaf
    · cases leaf
      decide
  refine ⟨built, markless, ?_⟩
  exact replaceAll_namedPattern built markless

end Rule

end Rulebook

import Rulebook.Proofs.Rule.Size

/-!
# Captures

The names that a walk over a rule finds are the names of the groups of its pattern, in the order in
which the groups open. A rule in which a name comes up twice is refused, and in a rule that is
accepted a name stands for the group that its entry opens: `Rule.captures_describe_pattern`.
-/

namespace Rulebook

open Pattern

namespace Rule

/-! ### Groups along a rule -/

mutual

/-- The names of the groups that the pattern of a rule opens, in order: one without a name for each
    combination, one for each entry with a name, and those of the patterns of leaves. -/
def groupNames : Rule → List Bytes
  | regex _ source => Token.names (leafTokens source)
  | text _ _ => []
  | combine _ _ entries => [] :: groupNamesAll entries

/-- The names of the groups that entries open one after another. -/
def groupNamesAll : List (Entry Rule) → List Bytes
  | [] => []
  | ⟨name, r⟩ :: rest =>
      (if name.isEmpty then [] else [name]) ++ groupNames r ++ groupNamesAll rest

end

theorem groupNamesAll_append (entries others : List (Entry Rule)) :
    groupNamesAll (entries ++ others) = groupNamesAll entries ++ groupNamesAll others := by
  induction entries with
  | nil => rfl
  | cons e rest ih =>
    obtain ⟨name, r⟩ := e
    simp only [List.cons_append, groupNamesAll, ih, List.append_assoc]

theorem names_embed (name : Bytes) (kind : Kind) (inner : List Token) :
    Token.names (embedTokens true name kind inner) =
      (if name.isEmpty then [] else [name]) ++ Token.names inner := by
  unfold embedTokens openToken isGrouped
  cases name with
  | nil => cases kind == .regex <;> simp [Token.names, Token.names_append]
  | cons b name => simp [Token.names, Token.names_append]

mutual

/-- The groups of a rule's pattern, one case for each kind of rule. -/
theorem names_tokens : ∀ r : Rule, Token.names (tokens true r) = groupNames r
  | regex _ _ => rfl
  | text _ _ => names_textTokens _
  | combine tag how entries => by
      have last : Token.names (.close :: repetition how) = [] := by cases how <;> rfl
      rw [tokens, Token.names, Token.names_append, last, List.append_nil, groupNames]
      congr 1
      split
      · exact names_choiceTokens entries
      · exact names_seqTokens entries []

theorem names_seqTokens : ∀ (entries : List (Entry Rule)) (pending : Bytes),
    Token.names (seqTokens true pending entries) = groupNamesAll entries
  | [], _ => names_textTokens _
  | ⟨name, r⟩ :: rest, pending => by
      simp only [seqTokens, groupNamesAll]
      split
      · rename_i literal found
        obtain ⟨rfl, tag, rfl⟩ := eq_text_of_literal? found
        exact names_seqTokens rest _
      · rw [Token.names_append, Token.names_append, names_textTokens, List.nil_append, names_embed,
          names_tokens r, names_seqTokens rest]

theorem names_choiceTokens : ∀ entries : List (Entry Rule),
    Token.names (choiceTokens true entries) = groupNamesAll entries
  | [] => rfl
  | ⟨name, r⟩ :: rest => by
      have bar : Token.names (if rest.isEmpty then [] else .bar :: choiceTokens true rest) =
          Token.names (choiceTokens true rest) := by
        cases rest <;> rfl
      rw [choiceTokens, Token.names_append, bar, names_embed, names_tokens r,
        names_choiceTokens rest, groupNamesAll]

end

/-! ### The groups of a compiled rule -/

/-- A walk finds the names that are not empty. -/
theorem captures_eq (r : Rule) : r.captures = titles ((reach r.entries).map Entry.name) := by
  rw [captures, visit, visitEntry_descend, List.filter_cons_of_neg (by simp [Entry.isNamed]), titles,
    List.filter_map]
  rfl

/-- If no pattern of a leaf names a group, a walk finds the names of all groups that have one. -/
theorem Unnamed.captures_eq_titles {r : Rule} (unnamed : Unnamed r) :
    r.captures = titles (groupNames r) := by
  rw [captures_eq, ← titles_tokens r unnamed, names_tokens]

/-- A pattern has the names of its tokens. -/
theorem names_of_parse {source : Bytes} {tokens : List Token} {piece : Piece}
    (scanned : Token.scan source.scalars = tokens.map .ok)
    (parsed : Piece.parse source = .ok piece) : piece.expr.names = Token.names tokens := by
  obtain ⟨parts, read, same⟩ := read_of_parse scanned parsed
  rw [← Expr.names_unnumbered, ← same, Sketch.names_readWith read]

/-- The names of the groups of the patterns that are compiled for a rule. -/
theorem Firm.names_eq {r : Rule} (firm : Firm r) {c : Compiled} (compiled : r.compile = .ok c) :
    c.search.names = groupNames r ∧ c.whole.names = groupNames r := by
  obtain ⟨piece, parsed, names, -⟩ := Regex.of_ofPattern (compile_ok compiled).1
  have here : c.search.names = groupNames r := by
    rw [names, names_of_parse (firm.scan_namedPattern parsed) parsed, names_tokens]
  have searches := firm.searches compiled
  exact ⟨here, by rw [searches.whole_names, ← searches.names, here]⟩

/-- The names of groups that bear a name are distinct in a rule that is compiled. -/
theorem Sound.nodup_titles {r : Rule} (sound : Sound r) {c : Compiled}
    (compiled : r.compile = .ok c) : (titles (groupNames r)).Nodup := by
  obtain ⟨piece, -, names, -, -, unique⟩ := Regex.of_ofPattern (compile_ok compiled).1
  rw [← names, (sound.firm.names_eq compiled).1] at unique
  exact (repeated?_eq_none.1 unique).1

/-- What keeps a rule from being compiled is that the matcher refuses one of its patterns. -/
theorem rejected_of_compile {r : Rule} {e : Error} (failed : r.compile = .error e) :
    ∃ p cause, e = .rejected p cause := by
  have refused {source : Bytes} (failed : Regex.ofPattern source = .error e) :
      ∃ p cause, e = .rejected p cause := by
    unfold Regex.ofPattern at failed
    split at failed
    · cases failed
      exact ⟨_, _, rfl⟩
    · split at failed
      · cases failed
        exact ⟨_, _, rfl⟩
      · cases failed
  unfold compile at failed
  split at failed
  · cases failed
    exact refused ‹_›
  · split at failed
    · cases failed
      exact refused ‹_›
    · cases failed

/-- The number of the only group with a name is one more than the number of groups before it. -/
theorem groupNumber?_of_names {regex : Regex} {name : Bytes} (isNamed : name ≠ [])
    {before after : List Bytes} (names : regex.names = before ++ name :: after)
    (distinct : (titles regex.names).Nodup) :
    regex.groupNumber? name = some (before.length + 1) := by
  have absent : ∀ other ∈ before, (other == name) = false := by
    intro other mem
    rw [names, titles_append, List.nodup_append] at distinct
    have inside : name ∈ titles (name :: after) := by simp [titles, isNamed]
    have apart := distinct.2.2
    by_contra same
    have same : other = name := by simpa using same
    exact apart name (by simp [titles, ← same, mem, same ▸ isNamed]) name inside rfl
  have first : regex.names.findIdx? (· == name) = some before.length := by
    rw [names, List.findIdx?_append, List.findIdx?_eq_none_iff.2 absent]
    simp [List.findIdx?_cons]
  rw [Regex.groupNumber?, first]
  rfl

/-- The walk over a rule describes the groups of its pattern. If a name comes up twice, the matcher
    refuses the rule. If the rule is accepted, then no name comes up twice; the walk finds the names
    of the groups in their order, which the anchored pattern has at the same numbers; and the name of
    an entry stands for the group that the entry opens, after the group of the whole combination and
    the groups of the entries before it. -/
theorem captures_describe_pattern {r : Rule} (sound : Sound r) (unnamed : Unnamed r) :
    (¬ r.captures.Nodup → ∃ p cause, r.compile = .error (.rejected p cause)) ∧
      ∀ c, r.compile = .ok c →
        r.captures.Nodup ∧ r.captures = c.search.names.filter (!·.isEmpty) ∧
          c.whole.names = c.search.names ∧
          ∀ before e after, r.entries = before ++ e :: after → e.isNamed = true →
            c.search.names =
              [] :: groupNamesAll before ++ e.name :: (groupNames e.rule ++ groupNamesAll after) ∧
            c.search.groupNumber? e.name = some ((groupNamesAll before).length + 2) ∧
            c.whole.groupNumber? e.name = some ((groupNamesAll before).length + 2) := by
  rw [unnamed.captures_eq_titles]
  refine ⟨fun twice => ?_, fun c compiled => ?_⟩
  · cases compiled : r.compile with
    | ok c => exact absurd (sound.nodup_titles compiled) twice
    | error e =>
      obtain ⟨p, cause, rfl⟩ := rejected_of_compile compiled
      exact ⟨p, cause, rfl⟩
  · obtain ⟨search, whole⟩ := sound.firm.names_eq compiled
    have distinct := sound.nodup_titles compiled
    refine ⟨distinct, by rw [search, titles], by rw [whole, search], ?_⟩
    intro before e after entries isNamed
    have names : groupNames r =
        ([] :: groupNamesAll before) ++ e.name :: (groupNames e.rule ++ groupNamesAll after) := by
      cases r with
      | regex tag source => exact absurd entries (by simp [Rule.entries])
      | text tag literal => exact absurd entries (by simp [Rule.entries])
      | combine tag how all =>
        obtain rfl : all = before ++ e :: after := entries
        obtain ⟨name, rule⟩ := e
        have isNamed : name.isEmpty = false := by simpa [Entry.isNamed] using isNamed
        simp [groupNames, groupNamesAll_append, groupNamesAll, isNamed]
    have some_name : e.name ≠ [] := by simpa [Entry.isNamed] using isNamed
    have number {regex : Regex} (same : regex.names = groupNames r) :
        regex.groupNumber? e.name = some ((groupNamesAll before).length + 2) := by
      rw [groupNumber?_of_names some_name (same.trans names) (same ▸ distinct)]
      rfl
    exact ⟨by rw [search, names], number search, number whole⟩

theorem Sample.unnamed_whole : Unnamed Sample.whole := by
  have xs : Unnamed xs := unnamed_regex 0 (by rw [plainLeaf_xs.2]; rfl)
  have digit : Unnamed digit := unnamed_regex 1 (by rw [plainLeaf_digit.2]; rfl)
  refine unnamed_combine 5 .seq ?_
  simp only [List.forall_mem_cons, List.not_mem_nil, false_implies, implies_true, and_true]
  refine ⟨unnamed_combine 2 .oneOf ?_, digit, unnamed_text 6 "."⟩
  simp only [List.forall_mem_cons, List.not_mem_nil, false_implies, implies_true, and_true]
  exact ⟨unnamed_text 3 "a", unnamed_combine 4 _ (by simpa using xs)⟩

/-- Two entries of one name. -/
def Sample.twice : Rule := combine 7 .seq [⟨"p", text 8 "a"⟩, ⟨"p", text 9 "b"⟩]

theorem Sample.sound_twice : Sound Sample.twice :=
  sound_combine 7 .seq (by decide) (by simpa using ⟨sound_text 8 "a", sound_text 9 "b"⟩)

theorem Sample.unnamed_twice : Unnamed Sample.twice :=
  unnamed_combine 7 .seq (by simpa using ⟨unnamed_text 8 "a", unnamed_text 9 "b"⟩)

theorem captures_describe_pattern_sample :
    (Sound Sample.whole ∧ Unnamed Sample.whole ∧ ∃ c, Sample.whole.compile = .ok c ∧
      Sample.whole.captures = ["k", "p"] ∧
      c.search.names.filter (!·.isEmpty) = ["k", "p"] ∧
      c.search.groupNumber? "k" = some 2 ∧ c.whole.groupNumber? "k" = some 2) ∧
    Sound Sample.twice ∧ Unnamed Sample.twice ∧ Sample.twice.captures = ["p", "p"] ∧
      ∃ p cause, Sample.twice.compile = .error (.rejected p cause) := by
  obtain ⟨c, compiled⟩ := Sample.accepted_whole
  obtain ⟨-, names, -, number⟩ :=
    (captures_describe_pattern Sample.sound_whole Sample.unnamed_whole).2 c compiled
  have found : Sample.whole.captures = ["k", "p"] := rfl
  obtain ⟨-, here, there⟩ := number [] ⟨"k", Sample.choice⟩ _ rfl rfl
  have twice : Sample.twice.captures = ["p", "p"] := rfl
  exact ⟨⟨Sample.sound_whole, Sample.unnamed_whole, c, compiled, found, names ▸ found, here, there⟩,
    Sample.sound_twice, Sample.unnamed_twice, twice,
    (captures_describe_pattern Sample.sound_twice Sample.unnamed_twice).1 (by rw [twice]; decide)⟩

end Rule

end Rulebook

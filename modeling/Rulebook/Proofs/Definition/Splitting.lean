import Rulebook.Proofs.Definition.PlainReading

/-!
# Splitting loses nothing

A value is recognised by one pattern and then searched for tokens by another, and so is what stands in
the groups of a token. Nothing of it is lost: `Bootstrap.splits_without_loss`.
-/

namespace Rulebook

open Pattern Bytes

namespace Bootstrap

open Rule

/-! ### Tokens -/

/-- True of a tree with an atom that is either a group or a literal of exactly one kind. -/
def HasAtom (t : Tree) : Prop :=
  ∃ atom, t.child? "atom" = some atom ∧
    ((∃ group, atom.children = [group] ∧ group.name = "group") ∨
      ∃ literal kind, atom.children = [literal] ∧ literal.name = "literal" ∧
        literal.children = [kind] ∧ kind.name ∈ [("text" : Bytes), "pattern", "bare"])

theorem hasAtom_of_mem {text : Bytes} {t : Tree} (mem : t ∈ token.nodes text) : HasAtom t := by
  obtain ⟨inner, -, own, named, grown⟩ :=
    between_of_mem [] ⟨"atom", atom⟩ [⟨"suffix", optional suffix⟩]
      legal_token isFree_token (by decide) (by decide) mem
  obtain ⟨e, entry, child, only, title, grown', text_eq, own'⟩ :=
    part_of_oneOf legal_atom avoids_atom (by simp) (by decide) grown own
  refine ⟨inner, named, ?_⟩
  simp only [List.mem_cons, List.not_mem_nil, or_false] at entry
  obtain rfl | rfl := entry
  · exact .inl ⟨child, only, title⟩
  · obtain ⟨d, entry', kind, one, title', -⟩ := part_of_oneOf legal_literal avoids_literal (by simp)
      (by decide) grown' (text_eq ▸ own')
    refine .inr ⟨child, kind, only, title, one, title' ▸ ?_⟩
    simp only [List.mem_cons, List.not_mem_nil, or_false] at entry'
    obtain rfl | rfl | rfl := entry' <;> simp

/-- Trees that stand one after another in a text from an offset on, with nothing but blanks between
    them, and at least one between two. -/
inductive Spread : Nat → Bytes → List Tree → Prop where
  | last {offset : Nat} {t : Tree} : t.offset = offset → Spread offset t.text [t]
  | next {offset : Nat} {t : Tree} {gap rest : Bytes} {trees : List Tree} : t.offset = offset → gap ≠ [] →
      Blanks gap → Spread (offset + t.text.length + gap.length) rest trees →
      Spread offset (t.text ++ (gap ++ rest)) (t :: trees)

theorem spread_of_laid (text : Bytes) {pieces : List (List Scalar × List Scalar)} {first : List Scalar}
    {offset : Nat} {trees : List Tree} (sub : ∀ s ∈ joined pieces, s ∈ text.scalars)
    (gaps : ∀ piece ∈ pieces, piece.1 ≠ [] ∧ ∀ s ∈ piece.1, IsSpace s)
    (laid : Laid offset (([], first) :: pieces) trees) :
    Spread offset (ofScalars (first ++ joined pieces)) trees := by
  induction pieces generalizing first offset trees with
  | nil =>
    cases laid with
    | cons place word others =>
      cases others
      rw [joined, List.flatMap_nil, List.append_nil, ← word, ofScalars_scalars]
      exact .last place
  | cons piece pieces ih =>
    obtain ⟨gap, word⟩ := piece
    obtain ⟨⟨full, blanks⟩, others⟩ := List.forall_mem_cons.1 gaps
    rw [joined, List.flatMap_cons] at sub
    obtain ⟨here, later⟩ := List.forall_mem_append.1 sub
    cases laid with
    | @cons _ _ _ _ t _ place same laid =>
      have text_eq : t.text = ofScalars first := by rw [← same, ofScalars_scalars]
      have spread := ih later others laid.skip
      have wide : ofScalars gap ≠ [] := by
        obtain ⟨s, more, rfl⟩ := List.exists_cons_of_ne_nil full
        have bytes := (blanks s (List.mem_cons_self ..)).imp
          (bytes_of_code (here s (by simp)) (a := 9) (by decide))
          (bytes_of_code (here s (by simp)) (a := 32) (by decide))
        obtain eq | eq := bytes <;> simp [eq]
      have known : Blanks (ofScalars gap) :=
        blanks_ofScalars (fun s mem => here s (List.mem_append_left _ mem)) blanks
      have whole := Spread.next (t := t) place wide known (by rwa [text_eq])
      rw [joined, List.flatMap_cons, ofScalars_append, ofScalars_append, ofScalars_append,
        List.append_assoc, ← ofScalars_append word, ← text_eq]
      exact whole

/-- True of a text that the rule for tokens covers but for blanks between the tokens. -/
def Covered (text : Bytes) : Prop :=
  ∃ nodes, token.parse text = .ok nodes ∧ Spread 0 text nodes ∧ ∀ t ∈ nodes, HasAtom t

/-- A list of tokens is covered by tokens. -/
theorem covered_of_mem {t : Rule} (legal : Legal (sequenceOf t)) (includes : Includes token t)
    {text : Bytes} (mem : text.scalars ∈ (sequenceOf t).expr.language) : Covered text := by
  obtain ⟨first, pieces, eq, one, all⟩ := (mem_listOf legal).1 mem
  have gaps : ∀ piece ∈ pieces, piece.1 ≠ [] ∧ ∀ s ∈ piece.1, IsSpace s := fun piece mem =>
    mem_space.1 (all piece mem).1
  have words : ∀ piece ∈ ([], first) :: pieces, piece.2 ∈ token.expr.language :=
    List.forall_mem_cons.2 ⟨includes first one, fun piece mem => includes _ (all piece mem).2⟩
  have cut := cuts_tokens (legal_token.isFree avoids_token) apart_token delimited_token gaps words
  have laid := ready_token.laid_nodes (by simp [token, seq, kind]) steady_token (eq ▸ cut)
  refine ⟨token.nodes text, ready_token.parse_eq text, ?_, fun t => hasAtom_of_mem⟩
  have spread := spread_of_laid text
    (fun s mem => eq ▸ List.mem_append_right first mem) gaps laid
  rwa [← eq, ofScalars_scalars] at spread

theorem matches_value (text : Bytes) : value.Matches text ↔ text.scalars ∈ value.expr.language :=
  modest_value.sound.matches_iff accepted_value nofun
    (Avoids.conditionFree modest_value.sound avoids_value) text

theorem covered_value {text : Bytes} (matches_ : value.Matches text) : Covered text := by
  have legal : Legal value := legal_of_modest modest_value (by decide)
  have same : (leaf token).expr.language = token.expr.language :=
    language_leaf modest_token (by decide)
  exact covered_of_mem legal (fun w mem => same ▸ mem) ((matches_value text).1 matches_)

theorem covered_sequence {text : Bytes}
    (mem : text.scalars ∈ (leaf (sequenceOf innerToken)).expr.language) : Covered text := by
  rw [language_sequence] at mem
  exact covered_of_mem (legal_of_modest modest_sequence (by decide)) includes_token mem

/-! ### Alternatives -/

/-- True of a text that the rule for alternatives cuts into parts without loss, one more than there are
    bars, each with a sequence that is covered by tokens. -/
def Parted (text : Bytes) : Prop :=
  ∃ nodes, alternative.parse text = .ok nodes ∧ (nodes.map Tree.text).flatten = text ∧
    nodes.length = bars (.plain, 0) text.scalars + 1 ∧
    ∀ t ∈ nodes, ∃ sequence, t.child? "sequence" = some sequence ∧ sequence.text ≠ [] ∧
      Covered sequence.text

theorem parted_of_mem {text : Bytes} (mem : text.scalars ∈ (alternativesOf innerToken).expr.language) :
    Parted text := by
  obtain ⟨first, others, eq, one, all⟩ := exists_of_mem_alternatives mem
  have laid := ready_alternative.laid_nodes (by simp [alternative, seq, kind]) steady_alternative
    (eq ▸ cuts_ended one all)
  have words := laid.map_scalars
  rw [List.map_map, show (Prod.snd ∘ fun part : List Scalar => (([] : List Scalar), part)) = id from rfl,
    List.map_id] at words
  refine ⟨alternative.nodes text, ready_alternative.parse_eq text, ?_, ?_, fun t mem => ?_⟩
  · have texts : (alternative.nodes text).map Tree.text = (ended first others).map ofScalars := by
      rw [← words, List.map_map]
      exact List.map_congr_left fun t _ => (ofScalars_scalars t.text).symm
    rw [texts, ← ofScalars_flatten, flatten_ended, ← eq, ofScalars_scalars]
  · rw [eq, bars_alternatives one all, ← length_ended first, ← words, List.length_map]
  · obtain ⟨inner, -, own, named, -⟩ :=
      between_of_mem [] ⟨"sequence", leaf (sequenceOf innerToken)⟩
        [item optSpace, item (optional (Bootstrap.text "|")), item optSpace] legal_alternative
        (legal_alternative.isFree avoids_alternative) (by decide) (by decide) mem
    refine ⟨inner, named, fun none => ?_, covered_sequence own⟩
    obtain ⟨s, more, eq, -⟩ := apart_seq legal_sequence apart_innerToken _ (language_sequence ▸ own)
    rw [none] at eq
    cases eq

/-- What a group holds, wherever the group was found. -/
theorem mem_alternatives {text : Bytes} {group_ alternatives : Tree}
    (stands : group_ ∈ group.nodes text ∨ ∃ t ∈ token.nodes text, ∃ inner, t.child? "atom" = some inner ∧
      inner.child? "group" = some group_) (here : group_.child? "alternatives" = some alternatives) :
    alternatives.text.scalars ∈ (alternativesOf innerToken).expr.language := by
  have free := legal_group.isFree avoids_group
  rw [← language_alternatives]
  obtain mem | ⟨t, mem, inner, atom_, group_eq⟩ := stands
  · obtain ⟨child, -, own, named, -⟩ := between_of_mem [item (Bootstrap.text "("), item optSpace]
      ⟨"alternatives", leaf (alternativesOf innerToken)⟩
      [item optSpace, item (Bootstrap.text ")")] legal_group free (by decide) (by decide) mem
    cases here.symm.trans named
    exact own
  · have grown := grown_of_child? group (grown_of_mem_nodes atom mem atom_ rfl) group_eq rfl
    obtain ⟨span, offset, c, found, node, name, whole, rfl⟩ :=
      grown.wholeNode legal_group.sound nofun (List.ne_nil_of_mem (Tree.mem_of_child? here).1)
    obtain ⟨child, -, own, named, -⟩ := between_of_whole [item (Bootstrap.text "("), item optSpace]
      ⟨"alternatives", leaf (alternativesOf innerToken)⟩
      [item optSpace, item (Bootstrap.text ")")] legal_group free (by decide) (by decide) whole name
    cases here.symm.trans named
    exact own

/-- Splitting loses nothing that was recognised. The tokens of a value cover it but for blanks between
    them, and whatever a group holds, wherever the group stands, is cut without loss into its
    alternatives, the sequences of which are covered by their tokens in turn. -/
theorem splits_without_loss :
    (∀ text, value.Matches text → Covered text) ∧
      ∀ text group_ alternatives, (group_ ∈ group.nodes text ∨
          ∃ t ∈ token.nodes text, ∃ inner, t.child? "atom" = some inner ∧
            inner.child? "group" = some group_) →
        group_.child? "alternatives" = some alternatives → Parted alternatives.text :=
  ⟨fun _ => covered_value, fun _ _ _ stands here => parted_of_mem (mem_alternatives stands here)⟩

namespace Sample

open Definition (Literal Phrase Quotable SpelledRow SpelledRows IsGap IsBar Enclosed Groups)
open Definition.Sample (spelled_alone isGap_space isBar_spaces)

/-- The alternatives of a group in a group. -/
def innerRows : List (List Phrase) :=
  [[.literal (.bare (scalars "c")) none], [.literal (.pattern (scalars "d")) none]]

/-- The one alternative of the group around it, which begins with a bar in quotes. -/
def outerRows : List (List Phrase) :=
  [[.literal (.text (scalars "\"a|b\"")) none, .group innerRows (some (.zeroOrMore false))]]

def nestedTokens : List Phrase :=
  [.group outerRows (some (.oneOrMore false)), .literal (.bare (scalars "e")) none]

/-- A value with a group in a group and a bar in quotes. -/
def nested : Bytes := "(\"a|b\" (c | 'd')*)+ e"

theorem spelled_innerRows : SpelledRows 2 innerRows (scalars "c | 'd'") := by
  have reference : (Literal.bare (scalars "c")).Spelled (scalars "c") := .bare (by decide) (by decide)
  have pattern : (Literal.pattern (scalars "d")).Spelled (scalars "'d'") :=
    .pattern rfl (.plain (by decide) .nil) rfl
  have first : SpelledRow 2 [.literal (.bare (scalars "c")) none] (scalars "c") := .last (spelled_alone 2 reference)
  exact .next first isBar_spaces (.last (.last (spelled_alone 2 pattern)))

theorem spelled_outerRows : SpelledRows 3 outerRows (scalars "\"a|b\" (c | 'd')*") := by
  have quotable : Quotable 34 (scalars "a|b") :=
    .plain (by decide) (.plain (by decide) (.plain (by decide) .nil))
  have text : (Literal.text (scalars "\"a|b\"")).Spelled (scalars "\"a|b\"") := .text rfl quotable rfl
  have group : Enclosed (SpelledRows 2 innerRows) (scalars "(c | 'd')") :=
    ⟨.ascii 40, [], scalars "c | 'd'", [], .ascii 41, rfl, rfl, nofun, spelled_innerRows, nofun, rfl⟩
  have repeated : Phrase.Spelled 3 (.group innerRows (some (.zeroOrMore false))) (scalars "(c | 'd')*") :=
    ⟨scalars "(c | 'd')", scalars "*", rfl, group, "*", rfl, rfl⟩
  exact .last (.next (spelled_alone 3 text) isGap_space (.last repeated))

theorem spelled_nested : SpelledRow maxDepth nestedTokens nested.scalars := by
  have reference : (Literal.bare (scalars "e")).Spelled (scalars "e") := .bare (by decide) (by decide)
  have group : Enclosed (SpelledRows 3 outerRows) (scalars "(\"a|b\" (c | 'd')*)") :=
    ⟨.ascii 40, [], scalars "\"a|b\" (c | 'd')*", [], .ascii 41, rfl, rfl, nofun, spelled_outerRows, nofun, rfl⟩
  have repeated : Phrase.Spelled 4 (.group outerRows (some (.oneOrMore false)))
      (scalars "(\"a|b\" (c | 'd')*)+") :=
    ⟨scalars "(\"a|b\" (c | 'd')*)", scalars "+", rfl, group, "+", rfl, rfl⟩
  exact .next repeated isGap_space (.last (spelled_alone 4 reference))

end Sample

open Definition (Groups nodes_of_row nodes_of_rows groups_of_spelled)

/-- The bar in quotes and the one in the group in the group do not cut the alternatives of the group. -/
theorem splits_without_loss_nested :
    value.Matches Sample.nested ∧ Covered Sample.nested ∧
      ∃ t ∈ token.nodes Sample.nested, ∃ outer, Groups t outer ∧ Parted outer.text ∧
        ∃ sequence, (alternative.nodes outer.text).map (·.child? "sequence") = [some sequence] ∧
          ∃ t' ∈ token.nodes sequence.text, ∃ inner, Groups t' inner ∧ Parted inner.text ∧
            (alternative.nodes inner.text).length = 2 := by
  have matched : value.Matches Sample.nested :=
    (matches_value _).2 (Definition.mem_value.2 ⟨_, Sample.spelled_nested⟩)
  obtain ⟨covered, parted⟩ := splits_without_loss
  have cut {text : Bytes} {t alternatives : Tree} (mem : t ∈ token.nodes text) (groups : Groups t alternatives) :
      Parted alternatives.text := by
    obtain ⟨inner, group_, atom_, isGroup, here⟩ := groups
    exact parted text group_ alternatives (.inr ⟨t, mem, inner, atom_, isGroup⟩) here
  have row := nodes_of_row (Nat.le_refl _) Sample.spelled_nested
  obtain ⟨t, _, spelled, -, same⟩ := List.forall₂_cons_left_iff.1 row
  have mem : t ∈ token.nodes Sample.nested := same ▸ List.mem_cons_self ..
  obtain ⟨outer, groups, rows⟩ := groups_of_spelled (Nat.le_refl 3) mem spelled
  obtain ⟨part, _, ⟨sequence, named, row⟩, others, single⟩ :=
    List.forall₂_cons_left_iff.1 (nodes_of_rows outer.text (by decide) rows)
  obtain ⟨_, _, -, others', same'⟩ := List.forall₂_cons_left_iff.1 (nodes_of_row (by decide) row)
  obtain ⟨t', _, spelled', -, rfl⟩ := List.forall₂_cons_left_iff.1 others'
  have mem' : t' ∈ token.nodes sequence.text := by simp [same']
  obtain ⟨inner, groups', rows'⟩ := groups_of_spelled (by decide : 2 ≤ 3) mem' spelled'
  refine ⟨matched, covered _ matched, t, mem, outer, groups, cut mem groups, sequence, ?_, t', mem', inner, groups',
    cut mem' groups', (nodes_of_rows inner.text (by decide) rows').length_eq.symm⟩
  rw [single, List.forall₂_nil_left_iff.1 others, List.map_singleton, named]

end Bootstrap

end Rulebook

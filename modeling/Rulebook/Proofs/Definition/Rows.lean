import Rulebook.Proofs.Definition.Spelling

/-!
# The nodes of rows

Where a row of tokens is spelled, the nodes that the rule for tokens finds are those tokens
(`Definition.nodes_of_row`), and where the alternatives of a group are spelled, the nodes that the rule for
alternatives finds hold them (`Definition.nodes_of_rows`).
-/

namespace Rulebook

open Pattern Bytes

namespace Definition

open Rule
open Bootstrap (IsSpace joined token alternative atom sequenceOf alternativesOf innerToken)

variable {depth : Nat} {text : Bytes} {w : List Scalar} {t : Tree}

theorem mem_token_of_spelled {p : Phrase} (fits : depth ≤ Bootstrap.maxDepth) (h : Phrase.Spelled depth p w) :
    w ∈ token.expr.language := mem_token.2 ⟨p, h.mono fits⟩

/-- The nodes for tokens are the tokens of a row. -/
theorem nodes_of_row (fits : depth ≤ Bootstrap.maxDepth) {row : List Phrase}
    (spelled : SpelledRow depth row text.scalars) :
    List.Forall₂ (fun p t => Phrase.Spelled depth p t.text.scalars) row (token.nodes text) := by
  obtain ⟨first, pieces, eq, gaps, all⟩ := spelled.cut
  have words : ∀ piece ∈ ([], first) :: pieces, piece.2 ∈ token.expr.language := by
    obtain ⟨one, others⟩ := List.forall_mem_cons.1 fun w mem =>
      (exists_of_forall₂ all w mem).elim fun _ => mem_token_of_spelled fits
    exact List.forall_mem_cons.2 ⟨one, List.forall_mem_map.1 others⟩
  have cut := Bootstrap.cuts_tokens Bootstrap.isFree_token Bootstrap.apart_token Bootstrap.delimited_token gaps
    words
  have laid := Bootstrap.ready_token.laid_nodes (by simp [token, Bootstrap.seq, kind]) Bootstrap.steady_token
    (eq ▸ cut)
  have texts : (token.nodes text).map (·.text.scalars) = first :: pieces.map Prod.snd := laid.map_scalars
  rw [← texts] at all
  exact List.forall₂_map_right_iff.1 all

/-- Rows with the bars after them. -/
theorem forall₂_ended {α : Type} {spelled : α → List Scalar → Prop} {as : List α} {first : List Scalar}
    {others : List (List Scalar × List Scalar)} (bars : ∀ other ∈ others, IsBar other.1)
    (all : List.Forall₂ spelled as (first :: others.map Prod.snd)) :
    List.Forall₂ (fun a part => ∃ word bar : List Scalar, part = word ++ bar ∧ spelled a word ∧
      ∀ s ∈ bar, s.code ∈ Bootstrap.trailing) as (Bootstrap.ended first others) := by
  induction others generalizing first as with
  | nil =>
    cases all with
    | cons here rest =>
      cases rest
      exact .cons ⟨first, [], by simp, here, nofun⟩ .nil
  | cons other others ih =>
    obtain ⟨isBar, bars⟩ := List.forall_mem_cons.1 bars
    cases all with
    | cons here rest =>
      refine .cons ⟨first, other.1, rfl, here, ?_⟩ (ih bars rest)
      obtain ⟨before, bar, after, eq, blanks, code, blanks'⟩ := isBar
      have blank {w : List Scalar} (all : ∀ s ∈ w, IsSpace s) : ∀ s ∈ w, s.code ∈ Bootstrap.trailing := by
        intro s mem
        obtain code | code := all s mem <;> simp [Bootstrap.trailing, code]
      rw [eq]
      exact List.forall_mem_append.2 ⟨blank blanks,
        List.forall_mem_cons.2 ⟨by simp [Bootstrap.trailing, code], blank blanks'⟩⟩

theorem mem_alternatives_of_spelled (fits : depth ≤ 3) {rows : List (List Phrase)} (h : SpelledRows depth rows w) :
    w ∈ (alternativesOf innerToken).expr.language :=
  mem_alternatives.2 ⟨rows, h.mono (fun _ h => h) fun _ _ h =>
    Separated.mono h (fun w (h : IsGap w) => h) fun _ _ h => h.mono fits⟩

theorem mem_group_of_spelled (fits : depth ≤ 3) {rows : List (List Phrase)}
    (h : Enclosed (SpelledRows depth rows) w) : w ∈ Bootstrap.group.expr.language := by
  obtain ⟨left, before, middle, after, right, eq, opens, blanks, inside, others⟩ := h
  have member := mem_alternatives_of_spelled fits inside
  exact mem_group.2 ⟨left, before, middle, after, right, eq, opens, blanks, mem_alternatives.1 member, others⟩

/-- The tree of a token with what its group holds, if it is a group. -/
def Groups (t alternatives : Tree) : Prop :=
  ∃ inner group, t.child? "atom" = some inner ∧ inner.child? "group" = some group ∧
    group.child? "alternatives" = some alternatives

/-- What the group of a token holds is spelled as the rows of the group. -/
theorem groups_of_spelled (fits : depth ≤ 3) {rows : List (List Phrase)} {sign : Option Combinator}
    (mem : t ∈ token.nodes text) (spelled : Phrase.Spelled (depth + 1) (.group rows sign) t.text.scalars) :
    ∃ alternatives, Groups t alternatives ∧ SpelledRows depth rows alternatives.text.scalars := by
  obtain ⟨first, last, eq, here, mark⟩ := spelled
  obtain ⟨inner, suffix, atom_, same, grown, -⟩ := Bootstrap.parts_token mem
    (Bootstrap.mem_atom.2 (.inl (mem_group_of_spelled fits here))) (mem_optSuffix.2 ⟨sign, mark⟩) eq
  obtain ⟨group, isGroup, same', grown'⟩ :=
    Bootstrap.group_of_atom grown (mem_group_of_spelled fits (same ▸ here))
  obtain ⟨left, before, middle, after, right, cut, opens, blanks, inside, blanks', closes⟩ := here
  obtain ⟨alternatives, named, word⟩ := Bootstrap.parts_group grown' (by rw [same', same, cut]) opens blanks
    (mem_alternatives_of_spelled fits inside) blanks' closes
  exact ⟨alternatives, ⟨inner, group, atom_, isGroup, named⟩, word ▸ inside⟩

/-- The nodes for alternatives hold the rows. -/
theorem nodes_of_rows (text : Bytes) (fits : depth ≤ 3) {rows : List (List Phrase)}
    (spelled : SpelledRows depth rows text.scalars) :
    List.Forall₂ (fun row t => ∃ sequence, t.child? "sequence" = some sequence ∧
      SpelledRow depth row sequence.text.scalars) rows (alternative.nodes text) := by
  obtain ⟨first, others, eq, bars, all⟩ := spelled.cut
  have member {row : List Phrase} {w : List Scalar} (h : SpelledRow depth row w) :
      w ∈ (sequenceOf innerToken).expr.language :=
    mem_sequence.2 ⟨row, h.mono (fun _ h => h) fun _ _ h => h.mono fits⟩
  obtain ⟨one, later⟩ := List.forall_mem_cons.1 (fun w mem => (exists_of_forall₂ all w mem).elim fun _ => member)
  have known : ∀ other ∈ others, other.1 ∈ Bootstrap.barred.expr.language ∧
      other.2 ∈ (sequenceOf innerToken).expr.language := fun other mem =>
    ⟨mem_barred.2 (bars other mem), List.forall_mem_map.1 later other mem⟩
  have laid := Bootstrap.ready_alternative.laid_nodes (by simp [alternative, Bootstrap.seq, kind])
    Bootstrap.steady_alternative (eq ▸ Bootstrap.cuts_ended one known)
  have texts := laid.map_scalars
  rw [List.map_map, show (Prod.snd ∘ fun part : List Scalar => (([] : List Scalar), part)) = id from rfl,
    List.map_id] at texts
  have parts := forall₂_ended bars all
  rw [← texts] at parts
  have known := (List.forall₂_and_left _ _).2 ⟨fun t mem => mem, (List.forall₂_map_right_iff.1 parts).flip⟩
  refine known.flip.imp ?_
  rintro row t ⟨mem, word, bar, cut, here, marks⟩
  obtain ⟨sequence, named, same⟩ := Bootstrap.parts_alternative mem (member here) marks cut
  exact ⟨sequence, named, same ▸ here⟩

end Definition

end Rulebook

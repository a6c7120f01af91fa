import Rulebook.Proofs.Definition.Nodes
import Rulebook.Proofs.Definition.Phrases

/-!
# What the rules of the grammar recognise

The rules for tokens recognise what spells a token and nothing else, at every depth of groups
(`Definition.mem_tokenAt`, `Definition.mem_token`).
-/

namespace Rulebook

open Pattern Bytes

namespace Definition

open Rule
open Bootstrap (IsSpace item letter digit underscore isWordCode joined optSuffix tokenAt sequenceOf
  alternativesOf innerToken Legal)

variable {w : List Scalar} {l : Literal} {depth : Nat}

/-! ### Literals -/

theorem quotable_iff {mark : Nat} {set : CharSet} (plain : Bootstrap.IsInside mark set) :
    w ∈ multiples (Bootstrap.insideExpr set).language (fun _ => True) ↔ Quotable mark w := by
  have known (s : Scalar) : set.contains s.code = true ↔ s.code ∉ [10, 13, mark, 92] := by
    rw [plain s]
    simp
  constructor
  · intro mem
    obtain ⟨pieces, -, rfl, all⟩ := mem_multiples.1 mem
    clear mem
    induction pieces with
    | nil => exact .nil
    | cons piece pieces ih =>
      obtain ⟨here, others⟩ := List.forall_mem_cons.1 all
      obtain ⟨s, rfl, on⟩ | ⟨s, s', rfl, code, other⟩ := Bootstrap.mem_insideExpr.1 here
      · exact .plain ((known s).1 on) (ih others)
      · exact .escaped code other (ih others)
  · intro quotable
    refine mem_multiples.2 ?_
    induction quotable with
    | nil => exact ⟨[], trivial, rfl, nofun⟩
    | @plain s w other _ ih =>
      obtain ⟨pieces, -, rfl, all⟩ := ih
      exact ⟨[s] :: pieces, trivial, rfl, List.forall_mem_cons.2
        ⟨Bootstrap.mem_insideExpr.2 (.inl ⟨s, rfl, (known s).2 other⟩), all⟩⟩
    | @escaped backslash s w code other _ ih =>
      obtain ⟨pieces, -, rfl, all⟩ := ih
      exact ⟨[backslash, s] :: pieces, trivial, rfl, List.forall_mem_cons.2
        ⟨Bootstrap.mem_insideExpr.2 (.inr ⟨backslash, s, rfl, code, other⟩), all⟩⟩

/-- The entry of the rule for literals that recognises a literal. -/
def Literal.entry : Literal → Entry Rule
  | text _ => ⟨"text", Bootstrap.quotedText⟩
  | pattern _ => ⟨"pattern", Bootstrap.quotedPattern⟩
  | bare _ => ⟨"bare", Bootstrap.bare⟩

theorem mem_quotedText :
    w ∈ Bootstrap.quotedText.expr.language ↔ Literal.Spelled (.text w) w := by
  rw [Bootstrap.expr_quotedText, Bootstrap.mem_quotedExpr]
  constructor
  · rintro ⟨left, inside, right, rfl, opens, closes, mem⟩
    exact .text opens ((quotable_iff Bootstrap.isInside_text).1 mem) closes
  · intro spelled
    cases spelled with
    | text opens mem closes =>
      exact ⟨_, _, _, rfl, opens, closes, (quotable_iff Bootstrap.isInside_text).2 mem⟩

theorem mem_quotedPattern :
    w ∈ Bootstrap.quotedPattern.expr.language ↔ ∃ inside, Literal.Spelled (.pattern inside) w := by
  rw [Bootstrap.expr_quotedPattern, Bootstrap.mem_quotedExpr]
  constructor
  · rintro ⟨left, inside, right, rfl, opens, closes, mem⟩
    exact ⟨inside, .pattern opens ((quotable_iff Bootstrap.isInside_pattern).1 mem) closes⟩
  · rintro ⟨inside, spelled⟩
    cases spelled with
    | pattern opens mem closes =>
      exact ⟨_, _, _, rfl, opens, closes, (quotable_iff Bootstrap.isInside_pattern).2 mem⟩

theorem mem_bare : w ∈ Bootstrap.bare.expr.language ↔ Literal.Spelled (.bare w) w := by
  rw [Bootstrap.mem_bare]
  simp only [Bootstrap.contains_bareSet]
  constructor
  · rintro ⟨some_char, all⟩
    exact .bare some_char all
  · intro spelled
    cases spelled with
    | bare some_char all => exact ⟨some_char, all⟩

/-- A literal is recognised as what it is. -/
theorem Literal.Spelled.mem (h : l.Spelled w) : w ∈ l.entry.rule.expr.language := by
  cases h with
  | text opens mem closes => exact mem_quotedText.2 (.text opens mem closes)
  | pattern opens mem closes => exact mem_quotedPattern.2 ⟨_, .pattern opens mem closes⟩
  | bare some_char all => exact mem_bare.2 (.bare some_char all)

theorem mem_literal : w ∈ Bootstrap.literal.expr.language ↔ ∃ l : Literal, l.Spelled w := by
  rw [Bootstrap.mem_literal]
  constructor
  · rintro (mem | mem | mem)
    · exact ⟨_, mem_quotedText.1 mem⟩
    · exact (mem_quotedPattern.1 mem).elim fun inside spelled => ⟨_, spelled⟩
    · exact ⟨_, mem_bare.1 mem⟩
  · rintro ⟨l, spelled⟩
    have mem := spelled.mem
    cases l with
    | text => exact .inl mem
    | pattern => exact .inr (.inl mem)
    | bare => exact .inr (.inr mem)

/-! ### Signs -/

theorem signOf_eq_some {how : Combinator} {sign : Bytes} (eq : signOf how = some sign) :
    sign ∈ Bootstrap.suffixes := by
  cases how with
  | zeroOrMore lazy => cases lazy <;> cases eq <;> decide
  | oneOrMore lazy => cases lazy <;> cases eq <;> decide
  | optional => cases eq; decide
  | seq => cases eq
  | oneOf => cases eq

theorem exists_signOf {sign : Bytes} (mem : sign ∈ Bootstrap.suffixes) :
    ∃ how, signOf how = some sign := by
  simp only [Bootstrap.suffixes, List.mem_cons, List.not_mem_nil, or_false] at mem
  obtain rfl | rfl | rfl | rfl | rfl := mem
  · exact ⟨.zeroOrMore true, rfl⟩
  · exact ⟨.oneOrMore true, rfl⟩
  · exact ⟨.optional, rfl⟩
  · exact ⟨.zeroOrMore false, rfl⟩
  · exact ⟨.oneOrMore false, rfl⟩

theorem mem_optSuffix : w ∈ optSuffix.expr.language ↔ ∃ sign, Signed sign w := by
  rw [Bootstrap.mem_optSuffix, Bootstrap.mem_suffix]
  constructor
  · rintro (rfl | ⟨sign, mem, codes⟩)
    · exact ⟨none, rfl⟩
    · obtain ⟨how, known⟩ := exists_signOf mem
      exact ⟨some how, sign, known, codes⟩
  · rintro ⟨sign, signed⟩
    cases sign with
    | none => exact .inl signed
    | some how =>
      obtain ⟨sign, known, codes⟩ := signed
      exact .inr ⟨sign, signOf_eq_some known, codes⟩

/-! ### Rows -/

section

variable {α : Type} {gap gap' : List Scalar → Prop} {spelled spelled' : α → List Scalar → Prop} {as : List α}
  {first : List Scalar} {pieces : List (List Scalar × List Scalar)}

theorem mem_space : w ∈ Bootstrap.space.expr.language ↔ IsGap w := Bootstrap.mem_space

theorem mem_barred : w ∈ Bootstrap.barred.expr.language ↔ IsBar w := Bootstrap.mem_barred

theorem Separated.mono (h : Separated gap spelled as w) (gaps : ∀ w, gap w → gap' w)
    (each : ∀ a w, spelled a w → spelled' a w) : Separated gap' spelled' as w := by
  induction h with
  | last one => exact .last (each _ _ one)
  | next one between _ ih => exact .next (each _ _ one) (gaps _ between) ih

/-- The words of a row and what stands between them. -/
theorem Separated.cut (h : Separated gap spelled as w) :
    ∃ first pieces, w = first ++ joined pieces ∧ (∀ piece ∈ pieces, gap piece.1) ∧
      List.Forall₂ spelled as (first :: pieces.map Prod.snd) := by
  induction h with
  | @last a w one => exact ⟨w, [], by simp [joined], nofun, .cons one .nil⟩
  | @next a as w between rest one isGap _ ih =>
    obtain ⟨first, pieces, rfl, gaps, all⟩ := ih
    exact ⟨w, (between, first) :: pieces, by simp [joined], List.forall_mem_cons.2 ⟨isGap, gaps⟩,
      .cons one all⟩

theorem exists_of_forall₂ {words : List (List Scalar)} (all : List.Forall₂ spelled as words) :
    ∀ w ∈ words, ∃ a, spelled a w := by
  induction all with
  | nil => exact nofun
  | cons here _ ih => exact List.forall_mem_cons.2 ⟨⟨_, here⟩, ih⟩

theorem Separated.ne_nil (h : Separated gap spelled as w) : as ≠ [] := by
  cases h <;> nofun

/-- Words with gaps between them are a row. By induction on the words after the first. -/
theorem exists_separated (gaps : ∀ piece ∈ pieces, gap piece.1) (one : ∃ a, spelled a first)
    (others : ∀ piece ∈ pieces, ∃ a, spelled a piece.2) :
    ∃ as, Separated gap spelled as (first ++ joined pieces) := by
  induction pieces generalizing first with
  | nil =>
    obtain ⟨a, one⟩ := one
    exact ⟨[a], by simpa [joined] using Separated.last one⟩
  | cons piece pieces ih =>
    obtain ⟨between, gaps⟩ := List.forall_mem_cons.1 gaps
    obtain ⟨here, others⟩ := List.forall_mem_cons.1 others
    obtain ⟨a, one⟩ := one
    obtain ⟨as, rest⟩ := ih gaps here others
    exact ⟨a :: as, by simpa [joined] using Separated.next one between rest⟩

/-- What a row of words starts with can be put before any other row. -/
theorem Separated.cons_first {bar : List Scalar → Prop} {rows : List (List α)} {word between : List Scalar}
    (one : ∃ a, spelled a word) (isGap : gap between)
    (h : Separated bar (Separated gap spelled) rows w) :
    ∃ rows, Separated bar (Separated gap spelled) rows (word ++ (between ++ w)) := by
  obtain ⟨a, one⟩ := one
  cases h with
  | @last row w here => exact ⟨[a :: row], .last (.next one isGap here)⟩
  | @next row rows w bar rest here isBar others =>
    have longer : Separated gap spelled (a :: row) (word ++ (between ++ w)) := .next one isGap here
    have whole := Separated.next longer isBar others
    simp only [List.append_assoc] at whole
    exact ⟨_, whole⟩

/-- Words with gaps or bars between them are rows with bars between them. By induction on the words after
    the first. -/
theorem exists_rows {bar : List Scalar → Prop} (gaps : ∀ piece ∈ pieces, bar piece.1 ∨ gap piece.1)
    (one : ∃ a, spelled a first) (others : ∀ piece ∈ pieces, ∃ a, spelled a piece.2) :
    ∃ rows, Separated bar (Separated gap spelled) rows (first ++ joined pieces) := by
  induction pieces generalizing first with
  | nil =>
    obtain ⟨a, one⟩ := one
    exact ⟨[[a]], by simpa [joined] using show Separated bar (Separated gap spelled) [[a]] first from .last (.last one)⟩
  | cons piece pieces ih =>
    obtain ⟨between, gaps⟩ := List.forall_mem_cons.1 gaps
    obtain ⟨here, others⟩ := List.forall_mem_cons.1 others
    obtain ⟨rows, rest⟩ := ih gaps here others
    rw [show joined (piece :: pieces) = piece.1 ++ (piece.2 ++ joined pieces) by simp [joined]]
    obtain isBar | isGap := between
    · obtain ⟨a, one⟩ := one
      exact ⟨[a] :: rows, .next (.last one) isBar rest⟩
    · exact rest.cons_first one isGap

/-- Rows with bars between them are words with gaps or bars between them. -/
theorem Separated.words {bar : List Scalar → Prop} {rows : List (List α)}
    (h : Separated bar (Separated gap spelled) rows w) :
    ∃ first pieces, w = first ++ joined pieces ∧ (∃ a, spelled a first) ∧
      ∀ piece ∈ pieces, (bar piece.1 ∨ gap piece.1) ∧ ∃ a, spelled a piece.2 := by
  have row {row : List α} {w : List Scalar} (h : Separated gap spelled row w) :
      ∃ first pieces, w = first ++ joined pieces ∧ (∃ a, spelled a first) ∧
        ∀ piece ∈ pieces, (bar piece.1 ∨ gap piece.1) ∧ ∃ a, spelled a piece.2 := by
    obtain ⟨first, pieces, rfl, gaps, all⟩ := h.cut
    obtain ⟨here, others⟩ := List.forall_mem_cons.1 (exists_of_forall₂ all)
    exact ⟨first, pieces, rfl, here, fun piece mem =>
      ⟨.inr (gaps piece mem), List.forall_mem_map.1 others piece mem⟩⟩
  induction h with
  | last one => exact row one
  | @next as rows w between rest one isBar _ ih =>
    obtain ⟨first, pieces, rfl, here, all⟩ := row one
    obtain ⟨first', pieces', rfl, here', all'⟩ := ih
    refine ⟨first, pieces ++ (between, first') :: pieces', by simp [joined], here, ?_⟩
    exact List.forall_mem_append.2 ⟨all, List.forall_mem_cons.2 ⟨⟨.inl isBar, here'⟩, all'⟩⟩

end

/-! ### Tokens -/

theorem spelled_literal {sign : Option Combinator} : Phrase.Spelled depth (.literal l sign) w ↔
    ∃ first last, w = first ++ last ∧ l.Spelled first ∧ Signed sign last := by
  cases depth <;> rfl

theorem exists_spelled_zero : (∃ p, Phrase.Spelled 0 p w) ↔
    ∃ first, (∃ l : Literal, l.Spelled first) ∧ ∃ last, (∃ sign, Signed sign last) ∧ w = first ++ last := by
  constructor
  · rintro ⟨p, spelled⟩
    cases p with
    | group => exact spelled.elim
    | literal l sign =>
      obtain ⟨first, last, eq, here, mark⟩ := spelled_literal.1 spelled
      exact ⟨first, ⟨l, here⟩, last, ⟨sign, mark⟩, eq⟩
  · rintro ⟨first, ⟨l, here⟩, last, ⟨sign, mark⟩, eq⟩
    exact ⟨.literal l sign, spelled_literal.2 ⟨first, last, eq, here, mark⟩⟩

theorem exists_spelled_succ : (∃ p, Phrase.Spelled (depth + 1) p w) ↔
    ∃ first, (Enclosed (fun middle => ∃ rows, SpelledRows depth rows middle) first ∨
      ∃ l : Literal, l.Spelled first) ∧ ∃ last, (∃ sign, Signed sign last) ∧ w = first ++ last := by
  constructor
  · rintro ⟨p, spelled⟩
    cases p with
    | group rows sign =>
      obtain ⟨first, last, eq, ⟨left, before, middle, after, right, cut, opens, blanks, inside, others⟩,
        mark⟩ := spelled
      exact ⟨first, .inl ⟨left, before, middle, after, right, cut, opens, blanks, ⟨rows, inside⟩, others⟩,
        last, ⟨sign, mark⟩, eq⟩
    | literal l sign =>
      obtain ⟨first, last, eq, here, mark⟩ := spelled_literal.1 spelled
      exact ⟨first, .inr ⟨l, here⟩, last, ⟨sign, mark⟩, eq⟩
  · rintro ⟨first, here, last, ⟨sign, mark⟩, eq⟩
    obtain ⟨left, before, middle, after, right, cut, opens, blanks, ⟨rows, inside⟩, others⟩ | ⟨l, here⟩ := here
    · exact ⟨.group rows sign, first, last, eq, ⟨left, before, middle, after, right, cut, opens, blanks,
        inside, others⟩, mark⟩
    · exact ⟨.literal l sign, spelled_literal.2 ⟨first, last, eq, here, mark⟩⟩

section

variable {t : Rule} {α : Type} {spelled : α → List Scalar → Prop}

theorem mem_sequenceOf (legal : Legal (sequenceOf t))
    (each : ∀ w, w ∈ t.expr.language ↔ ∃ a, spelled a w) :
    w ∈ (sequenceOf t).expr.language ↔ ∃ row, Separated IsGap spelled row w := by
  refine (Bootstrap.mem_listOf legal).trans ?_
  simp only [mem_space, each]
  constructor
  · rintro ⟨first, pieces, rfl, one, all⟩
    exact exists_separated (fun piece mem => (all piece mem).1) one fun piece mem => (all piece mem).2
  · rintro ⟨row, spelled⟩
    obtain ⟨first, pieces, rfl, gaps, all⟩ := spelled.cut
    obtain ⟨one, others⟩ := List.forall_mem_cons.1 (exists_of_forall₂ all)
    exact ⟨first, pieces, rfl, one, fun piece mem => ⟨gaps piece mem, List.forall_mem_map.1 others piece mem⟩⟩

theorem mem_alternativesOf (legal : Legal (alternativesOf t))
    (each : ∀ w, w ∈ t.expr.language ↔ ∃ a, spelled a w) :
    w ∈ (alternativesOf t).expr.language ↔
      ∃ rows, Separated IsBar (Separated IsGap spelled) rows w := by
  refine (Bootstrap.mem_listOf legal).trans ?_
  simp only [Bootstrap.mem_separator, mem_barred, mem_space, each]
  constructor
  · rintro ⟨first, pieces, rfl, one, all⟩
    exact exists_rows (fun piece mem => (all piece mem).1) one fun piece mem => (all piece mem).2
  · rintro ⟨rows, spelled⟩
    exact spelled.words

end

theorem mem_seq_two {e d : Entry Rule} (legal : Legal (Bootstrap.seq [e, d])) :
    w ∈ (Bootstrap.seq [e, d]).expr.language ↔
      ∃ u ∈ e.rule.expr.language, ∃ v ∈ d.rule.expr.language, w = u ++ v := by
  rw [Bootstrap.mem_seq legal, ← mem_language_entries]
  exact Bootstrap.mem_language_two

/-- What the rule for tokens of a depth recognises. By induction on the depth. -/
theorem mem_tokenAt (legal : Legal (tokenAt depth)) :
    w ∈ (tokenAt depth).expr.language ↔ ∃ p, Phrase.Spelled depth p w := by
  induction depth generalizing w with
  | zero =>
    rw [exists_spelled_zero]
    refine (mem_seq_two legal).trans ?_
    simp only [item, Bootstrap.language_anyLiteral, mem_literal, mem_optSuffix]
  | succ depth ih =>
    obtain ⟨atom, group, choices, one⟩ := legal.parts
    have inside (w : List Scalar) : w ∈ (alternativesOf (tokenAt depth)).expr.language ↔
        ∃ rows, SpelledRows depth rows w := mem_alternativesOf choices fun w => ih one
    have enclosed (w : List Scalar) : w ∈ (Bootstrap.groupOf (tokenAt depth)).expr.language ↔
        Enclosed (fun middle => ∃ rows, SpelledRows depth rows middle) w := by
      refine (Bootstrap.mem_enclosed (e := item (alternativesOf _)) group).trans ?_
      simp only [item, inside, Enclosed]
    have first (w : List Scalar) :
        w ∈ (Bootstrap.oneOf [item (Bootstrap.groupOf (tokenAt depth)), item Bootstrap.anyLiteral]).expr.language ↔
          Enclosed (fun middle => ∃ rows, SpelledRows depth rows middle) w ∨ ∃ l : Literal, l.Spelled w := by
      rw [Bootstrap.mem_oneOf atom (by simp)]
      simp only [List.mem_cons, List.not_mem_nil, or_false, exists_eq_or_imp, exists_eq_left, item, enclosed,
        Bootstrap.language_anyLiteral, mem_literal]
    rw [exists_spelled_succ]
    refine (mem_seq_two legal).trans ?_
    simp only [item] at first ⊢
    simp only [first, mem_optSuffix]

theorem mem_innerToken : w ∈ innerToken.expr.language ↔ ∃ p, Phrase.Spelled 3 p w :=
  mem_tokenAt Bootstrap.legal_innerToken

theorem mem_sequence : w ∈ (sequenceOf innerToken).expr.language ↔ ∃ row, SpelledRow 3 row w :=
  mem_sequenceOf Bootstrap.legal_sequence fun _ => mem_innerToken

theorem mem_alternatives : w ∈ (alternativesOf innerToken).expr.language ↔ ∃ rows, SpelledRows 3 rows w :=
  mem_alternativesOf (Bootstrap.legal_of_modest Bootstrap.modest_alternatives (by decide))
    fun _ => mem_innerToken

theorem mem_group : w ∈ Bootstrap.group.expr.language ↔
    Enclosed (fun middle => ∃ rows, SpelledRows 3 rows middle) w := by
  refine (Bootstrap.mem_enclosed (e := ⟨"alternatives", _⟩) Bootstrap.legal_group).trans ?_
  simp only [Bootstrap.language_alternatives, mem_alternatives, Enclosed]

/-- What the rule for tokens recognises. -/
theorem mem_token : w ∈ Bootstrap.token.expr.language ↔ ∃ p, Phrase.Spelled Bootstrap.maxDepth p w := by
  rw [Bootstrap.maxDepth, exists_spelled_succ, Bootstrap.mem_token]
  simp only [Bootstrap.mem_atom, mem_group, mem_literal, mem_optSuffix]

theorem mem_value : w ∈ Bootstrap.value.expr.language ↔ ∃ row, SpelledRow Bootstrap.maxDepth row w := by
  have same : (Bootstrap.leaf Bootstrap.token).expr.language = Bootstrap.token.expr.language :=
    Bootstrap.language_leaf Bootstrap.modest_token (by decide)
  exact mem_sequenceOf (Bootstrap.legal_of_modest Bootstrap.modest_value (by decide)) fun _ => by
    rw [same, mem_token]

/-- A token is one where groups may nest deeper, too. By induction on the depth. -/
theorem Phrase.Spelled.succ {p : Phrase} (h : Phrase.Spelled depth p w) : Phrase.Spelled (depth + 1) p w := by
  induction depth generalizing p w with
  | zero =>
    cases p with
    | group => exact h.elim
    | literal => exact spelled_literal.2 (spelled_literal.1 h)
  | succ depth ih =>
    cases p with
    | literal => exact spelled_literal.2 (spelled_literal.1 h)
    | group rows sign =>
      obtain ⟨first, last, eq, ⟨left, before, middle, after, right, cut, opens, blanks, inside, others⟩,
        mark⟩ := h
      have deeper := inside.mono (fun _ h => h) fun _ _ h =>
        Separated.mono h (fun w (h : IsGap w) => h) fun _ _ => ih
      exact ⟨first, last, eq, ⟨left, before, middle, after, right, cut, opens, blanks, deeper, others⟩, mark⟩

theorem Phrase.Spelled.mono {p : Phrase} {limit : Nat} (h : Phrase.Spelled depth p w) (le : depth ≤ limit) :
    Phrase.Spelled limit p w := by
  induction le with
  | refl => exact h
  | step _ ih => exact ih.succ

/-! ### Identifiers -/

theorem legal_name : Legal Bootstrap.name := Bootstrap.legal_of_modest Bootstrap.modest_name (by decide)

theorem mem_letter : w ∈ letter.expr.language ↔
    ∃ s, w = [s] ∧ (65 ≤ s.code ∧ s.code ≤ 90 ∨ 97 ≤ s.code ∧ s.code ≤ 122) := by
  rw [show letter.expr = _ from (Bootstrap.simple_of_getElem 3 rfl).expr_eq Bootstrap.tag]
  refine exists_congr fun s => and_congr_right fun _ => ?_
  simp [CharSet.contains]

theorem mem_digit : w ∈ digit.expr.language ↔ ∃ s, w = [s] ∧ 48 ≤ s.code ∧ s.code ≤ 57 := by
  rw [show digit.expr = _ from (Bootstrap.simple_of_getElem 4 rfl).expr_eq Bootstrap.tag]
  refine exists_congr fun s => and_congr_right fun _ => ?_
  simp [CharSet.contains]

theorem mem_underscore : w ∈ underscore.expr.language ↔ ∃ s, w = [s] ∧ s.code = 95 :=
  Bootstrap.mem_text.trans List.map_eq_singleton_iff

/-- A name is a letter or an underscore, and letters, digits and underscores. -/
theorem mem_name : w ∈ Bootstrap.name.expr.language ↔
    ∃ s more, w = s :: more ∧ (isWordCode s.code = true ∧ ¬ (48 ≤ s.code ∧ s.code ≤ 57)) ∧
      ∀ c ∈ more, isWordCode c.code = true := by
  have legal_many := legal_name.entry (e := item (Bootstrap.many [item (Bootstrap.oneOf _)]))
    (List.mem_cons_of_mem _ (List.mem_cons_self ..))
  have legal_later := legal_many.entry (e := item (Bootstrap.oneOf _)) (List.mem_cons_self ..)
  have legal_first := legal_name.entry (e := item (Bootstrap.oneOf _)) (List.mem_cons_self ..)
  have first (w : List Scalar) : w ∈ (Bootstrap.oneOf [item letter, item underscore]).expr.language ↔
      ∃ s, w = [s] ∧ isWordCode s.code = true ∧ ¬ (48 ≤ s.code ∧ s.code ≤ 57) := by
    rw [Bootstrap.mem_oneOf legal_first (by simp)]
    simp only [List.mem_cons, List.not_mem_nil, or_false, exists_eq_or_imp, exists_eq_left, item, mem_letter,
      mem_underscore, ← exists_or, ← and_or_left]
    refine exists_congr fun s => and_congr_right fun _ => ?_
    simp [isWordCode]
    omega
  have later (w : List Scalar) :
      w ∈ (Bootstrap.oneOf [item letter, item digit, item underscore]).expr.language ↔
        ∃ s, w = [s] ∧ isWordCode s.code = true := by
    rw [Bootstrap.mem_oneOf legal_later (by simp)]
    simp only [List.mem_cons, List.not_mem_nil, or_false, exists_eq_or_imp, exists_eq_left, item, mem_letter,
      mem_digit, mem_underscore, ← exists_or, ← and_or_left]
    refine exists_congr fun s => and_congr_right fun _ => ?_
    simp [isWordCode]
    omega
  have rest (w : List Scalar) :
      w ∈ (Bootstrap.many [item (Bootstrap.oneOf [item letter, item digit, item underscore])]).expr.language ↔
        ∀ c ∈ w, isWordCode c.code = true := by
    rw [Bootstrap.mem_many legal_many]
    simp only [Bootstrap.mem_language_one]
    constructor
    · rintro ⟨pieces, rfl, all⟩
      exact Bootstrap.flatten_singletons fun piece mem => (later piece).1 (all piece mem)
    · intro all
      obtain ⟨pieces, eq, singles⟩ := Bootstrap.exists_singletons all
      exact ⟨pieces, eq, fun piece mem => (later piece).2 (singles piece mem)⟩
  refine (mem_seq_two legal_name).trans ?_
  constructor
  · rintro ⟨u, mem, v, more, rfl⟩
    obtain ⟨s, rfl, start⟩ := (first u).1 mem
    exact ⟨s, v, rfl, start, (rest v).1 more⟩
  · rintro ⟨s, more, rfl, start, all⟩
    exact ⟨[s], (first _).2 ⟨s, rfl, start⟩, more, (rest _).2 all, rfl⟩

theorem isWordCode_ascii {b : UInt8} (ascii : b < 0x80) :
    isWordCode (Scalar.ascii b).code = Bytes.isWord b := by
  rw [Scalar.code_ascii ascii, Bool.eq_iff_iff]
  simp [isWordCode, isWord, UInt8.le_iff_toNat_le, ← UInt8.toNat_inj]

/-- The rule for names recognises the identifiers. -/
theorem mem_name_iff {word : Bytes} :
    word.scalars ∈ Bootstrap.name.expr.language ↔ isIdentifier word = true := by
  have digit (b : UInt8) (ascii : b < 0x80) : (!(48 ≤ b && b ≤ 57)) = true ↔
      ¬ (48 ≤ (Scalar.ascii b).code ∧ (Scalar.ascii b).code ≤ 57) := by
    rw [Scalar.code_ascii ascii]
    simp [UInt8.le_iff_toNat_le]
    omega
  have words {t : Bytes} (asciis : ∀ b ∈ t, b < 0x80) :
      t.map Scalar.ascii ∈ Bootstrap.name.expr.language ↔ isIdentifier t = true := by
    rw [mem_name]
    cases t with
    | nil => simp [isIdentifier, isValidName]
    | cons b t =>
      obtain ⟨ascii, asciis⟩ := List.forall_mem_cons.1 asciis
      have all : (∀ c ∈ t.map Scalar.ascii, isWordCode c.code = true) ↔ t.all isWord = true := by
        rw [List.forall_mem_map, List.all_eq_true]
        exact forall₂_congr fun a mem => by rw [isWordCode_ascii (asciis a mem)]
      have same : isIdentifier (b :: t) = true ↔
          (isWord b = true ∧ (!(48 ≤ b && b ≤ 57)) = true) ∧ t.all isWord = true := by
        rw [isIdentifier, isValidName, List.head?_cons, Option.all_some, List.all_cons]
        simp only [List.isEmpty_cons, Bool.not_false, Bool.true_and, Bool.and_eq_true]
        exact and_right_comm
      rw [same, digit b ascii, ← all, ← isWordCode_ascii ascii]
      constructor
      · rintro ⟨s, more, eq, start, later⟩
        cases eq
        exact ⟨start, later⟩
      · rintro ⟨start, later⟩
        exact ⟨_, _, rfl, start, later⟩
  constructor
  · intro mem
    have low : ∀ c ∈ word.scalars, c.code < 0x80 := by
      intro c here
      have := Bootstrap.isWordCode_of_mem mem c here
      simp [isWordCode] at this
      omega
    obtain ⟨t, asciis, eq⟩ := exists_bytes_of_codes (fun _ mem => mem) low
    have same : word = t := by rw [← ofScalars_scalars word, eq, ofScalars_map_ascii]
    rw [eq] at mem
    exact same ▸ (words asciis).1 mem
  · intro valid
    have asciis : ∀ b ∈ word, b < 0x80 := by
      rw [isIdentifier, Bool.and_eq_true, isValidName, Bool.and_eq_true, List.all_eq_true] at valid
      exact fun b mem => (word_byte (valid.1.2 b mem)).1
    rw [show word.scalars = _ by simpa using scalars_ascii_append asciis []]
    exact (words asciis).2 valid

end Definition

end Rulebook

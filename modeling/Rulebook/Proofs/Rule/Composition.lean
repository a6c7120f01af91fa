import Rulebook.Proofs.Pattern.Language
import Rulebook.Proofs.Rule.Anchored
import Rulebook.Rule.Matcher

/-!
# Whole texts that a rule matches

A rule whose patterns hold no conditions matches a text as a whole exactly if the text is in the
language of the rule's expression (`Rule.Sound.matches_iff`). So what a combination matches follows
from what its entries match, whether they have names or not (`Rule.matches_compositional`).
-/

namespace Rulebook

open Pattern
open Token (scan Clean)

/-- True of the parts into which a text is cut between characters. -/
def Bytes.Cuts (t : Bytes) (parts : List Bytes) : Prop :=
  ∃ pieces : List (List Scalar), t.scalars = pieces.flatten ∧ parts = pieces.map Bytes.ofScalars

/-- True of a pattern that is found exactly where its expression has a match, so that no lead stands
    in for it. -/
def Pattern.Regex.Standard (regex : Regex) : Prop :=
  ∀ text, regex.find? text = regex.program.find? (.start text)

namespace Rule

/-! ### Between the bounds of a text -/

/-- The start of a text is the only place without a character before it. -/
theorem eq_start_of_before {text : Bytes} {c : Cursor} (place : c ∈ (Cursor.start text).onward)
    (first : c.before = none) : c = .start text := by
  obtain ⟨taken, rest, eq⟩ := Cursor.mem_onward.1 place
  rw [eq] at first
  cases taken with
  | nil =>
    rw [eq]
    rw [List.nil_append] at rest
    rw [← rest, Cursor.advance_nil]
  | cons s taken => simp [Cursor.advance] at first

theorem passes_anchored {e : Expr} {c d : Cursor} {m : Marks} :
    e.anchored.passes c d m ↔
      c.before = none ∧ d.rest = [] ∧ e.passes c d m := by
  simp only [Expr.anchored, Expr.concat, Expr.passes, Passage.andThen, Cursor.holds,
    Option.isNone_iff_eq_none, List.isEmpty_iff]
  constructor
  · rintro ⟨_, _, _, ⟨first, rfl, rfl⟩, ⟨_, _, _, here, ⟨last, rfl, rfl⟩, rfl⟩, rfl⟩
    exact ⟨first, last, by simpa using here⟩
  · rintro ⟨first, last, here⟩
    exact ⟨c, [], m, ⟨first, rfl, rfl⟩, ⟨d, m, [], here, ⟨last, rfl, rfl⟩, by simp⟩, by simp⟩

/-- An expression without conditions is found between the bounds of a text exactly if the text is in
    its language. -/
theorem isSome_find?_anchored {e : Expr} (free : e.isFree = true) (text : Bytes) :
    ((Program.ofExpr e.anchored).find? (.start text)).isSome = true ↔ text.scalars ∈ e.language := by
  have spec := Program.find?_spec e.anchored (c := .start text) (wide_scalars text)
  constructor
  · intro found
    obtain ⟨f, found⟩ := Option.isSome_iff_exists.1 found
    obtain ⟨d, place, matched⟩ := Program.matchAt_of_find? found
    obtain ⟨first, last, here⟩ := passes_anchored.1 (Expr.reaches_iff.1 matched.path)
    cases eq_start_of_before place first
    obtain ⟨w, mem, rest, -⟩ := (Expr.reads_passes free _ _).1 ⟨_, here⟩
    rw [last, List.append_nil] at rest
    exact (show text.scalars = w from rest) ▸ mem
  · intro mem
    by_contra none
    rw [Option.not_isSome_iff_eq_none] at none
    rw [none] at spec
    obtain ⟨m, here⟩ := (Expr.reads_passes free (.start text)
      (Cursor.advance (.start text) text.scalars [])).2 ⟨_, mem, by simp [Cursor.start], rfl⟩
    exact spec _ (Cursor.self_mem_onward _) _ m
      (Expr.reaches_iff.2 (passes_anchored.2 ⟨rfl, rfl, here⟩))

/-! ### Rules without conditions -/

/-- True if no pattern of a rule holds a condition on what is around it. -/
def ConditionFree (r : Rule) : Prop :=
  ∀ e ∈ (⟨[], r⟩ : Entry Rule) :: reach r.entries, ∀ tag source, e.rule = regex tag source →
    (leafExpr source).isFree = true

theorem ConditionFree.entry {r : Rule} (h : ConditionFree r) {e : Entry Rule} (mem : e ∈ r.entries) :
    ConditionFree e.rule := by
  intro d below tag source eq
  obtain rfl | below := List.mem_cons.1 below
  · exact h e (List.mem_cons_of_mem _ (mem_reach mem)) tag source eq
  · exact h d (List.mem_cons_of_mem _ (reach_trans_rule r (mem_reach mem) below)) tag source eq

theorem conditionFree_text (tag : Nat) (literal : Bytes) : ConditionFree (text tag literal) := by
  intro e mem tag source eq
  cases List.mem_singleton.1 mem
  cases eq

theorem mem_fuse {pending : Bytes} {entries : List (Entry Rule)} {e : Entry Rule}
    (mem : e ∈ fuse pending entries) : e ∈ entries ∨ ∃ literal, e = ⟨[], text 0 literal⟩ := by
  induction entries generalizing pending with
  | nil => exact .inr ⟨pending, List.mem_singleton.1 mem⟩
  | cons d rest ih =>
    obtain ⟨name, r⟩ := d
    rw [fuse] at mem
    split at mem
    · exact (ih mem).imp_left (List.mem_cons_of_mem _)
    · obtain rfl | mem := List.mem_cons.1 mem
      · exact .inr ⟨pending, rfl⟩
      · obtain rfl | mem := List.mem_cons.1 mem
        · exact .inl (List.mem_cons_self ..)
        · exact (ih mem).imp_left (List.mem_cons_of_mem _)

theorem mem_shown {how : Combinator} {entries : List (Entry Rule)} {e : Entry Rule}
    (mem : e ∈ shown how entries) : e ∈ entries ∨ ∃ literal, e = ⟨[], text 0 literal⟩ := by
  unfold shown at mem
  split at mem
  · exact .inl mem
  · exact mem_fuse mem

theorem isFree_textExpr (literal : Bytes) : (textExpr literal).isFree = true := by
  rw [textExpr, Expr.isFree_concat, textExprs, List.all_map, List.all_eq_true]
  exact fun _ _ => rfl

theorem isFree_repeats (how : Combinator) (e : Expr) : (how.repeats e).isFree = e.isFree := by
  cases how <;> rfl

theorem isFree_joins (how : Combinator) (es : List Expr) :
    (how.joins es).isFree = es.all Expr.isFree := by
  unfold Combinator.joins
  split
  · exact Expr.isFree_choice es
  · exact Expr.isFree_concat es

theorem isFree_exprOf (e : Entry Rule) : (exprOf e).isFree = e.rule.expr.isFree := by
  unfold exprOf entryExpr
  split <;> rfl

/-- The expression of a rule without conditions is without conditions. -/
theorem Sound.isFree_expr {r : Rule} (sound : Sound r) (read : r.IsRead) (free : ConditionFree r) :
    r.expr.isFree = true := by
  induction r using of_entries with
  | step r ih =>
  cases r with
  | regex tag source =>
    rw [expr, readExpr_leafTokens (sound.leaf tag source rfl), Expr.isFree_unnumbered]
    exact free _ (List.mem_cons_self ..) tag source rfl
  | text tag literal => exact isFree_textExpr literal
  | combine tag how entries =>
    have even : ∀ e ∈ reach entries, Even e.rule := sound.even
    obtain ⟨reads, same⟩ := read.combine even
    rw [same.isFree_eq, isFree_repeats, Expr.isFree, isFree_joins, List.all_map, List.all_eq_true]
    intro e mem
    rw [Function.comp_apply, isFree_exprOf]
    obtain mem | ⟨literal, rfl⟩ := mem_shown mem
    · exact ih e mem (sound.entry (mem_reach mem)) (reads e mem) (free.entry mem)
    · exact isFree_textExpr literal

/-- True if a rule matches the whole of a text. -/
def Matches (r : Rule) (t : Bytes) : Prop := r.accepts t = .ok true

theorem matches_iff_occursIn {r : Rule} {c : Compiled} (h : r.compile = .ok c) (t : Bytes) :
    r.Matches t ↔ c.whole.occursIn t = true := by
  simp [Matches, accepts, Matcher.accepts, compiled_matcher, h]

/-- True of a rule that is matched as its expression says, which is in question for a pattern only. -/
def IsStandard (r : Rule) : Prop :=
  ∀ tag source c, r = regex tag source → r.compile = .ok c → c.whole.Standard

theorem Sound.standard {r : Rule} (sound : Sound r) (standard : r.IsStandard) {c : Compiled}
    (h : r.compile = .ok c) : c.whole.Standard := by
  by_cases kind : r.kind = .regex
  · cases r with
    | regex tag source => exact standard tag source c rfl h
    | _ => cases kind
  · intro text
    rw [Regex.find?, (sound.lead_none kind h).2]

/-- A rule matches the texts in the language of its expression. -/
theorem Sound.matches_iff {r : Rule} (sound : Sound r) (accepted : Accepted r)
    (standard : r.IsStandard) (free : ConditionFree r) (t : Bytes) :
    r.Matches t ↔ t.scalars ∈ r.expr.language := by
  obtain ⟨c, compiled⟩ := accepted
  have searches := sound.searches compiled
  have isFree := sound.isFree_expr searches.read free
  rw [matches_iff_occursIn compiled, Regex.occursIn, sound.standard standard compiled,
    searches.whole, isSome_find?_anchored, Expr.numbered, Expr.language_numberFrom]
  rw [Expr.numbered, Expr.isFree_numberFrom]
  exact isFree

/-! ### Texts -/

/-- A text that is accepted is UTF-8. -/
theorem isUtf8_of_accepted {tag : Nat} {literal : Bytes} (h : Accepted (text tag literal)) :
    literal.isUtf8 = true := by
  obtain ⟨c, compiled⟩ := h
  obtain ⟨piece, parsed, -⟩ := Regex.of_ofPattern (compile_ok compiled).1
  obtain ⟨whole, scanned⟩ := Piece.scan_of_parse parsed
  refine isUtf8_of_scanned (lasting_clean (y := []) (by simp [Fresh])) literal (s := []) ⟨whole, ?_⟩
  rw [List.append_nil, List.append_nil]
  exact scanned

/-- The texts that a text takes are those with the same code points. -/
theorem mem_language_textExpr {literal : Bytes} {w : List Scalar} :
    w ∈ (textExpr literal).language ↔ w.map Scalar.code = literal.scalars.map Scalar.code := by
  unfold textExpr textExprs
  have one (c : Scalar) (piece : List Scalar) :
      piece ∈ (Expr.one (.single c.code)).language ↔ ∃ d, piece = [d] ∧ d.code = c.code := by
    refine exists_congr fun d => and_congr_right fun _ => ?_
    simp only [CharSet.single, CharSet.contains, List.any_cons, List.any_nil, Bool.or_false,
      Bool.and_eq_true, decide_eq_true_eq]
    omega
  rw [Expr.mem_language_concat]
  generalize literal.scalars = chars
  induction chars generalizing w with
  | nil => simp
  | cons c rest ih =>
    simp only [List.map_cons, List.forall₂_cons_right_iff, one]
    constructor
    · rintro ⟨_, ⟨_, pieces, ⟨d, rfl, code⟩, others, rfl⟩, rfl⟩
      simp [code, ih.1 ⟨pieces, others, rfl⟩]
    · intro codes
      obtain ⟨d, w, rfl, code, tail⟩ := List.map_eq_cons_iff.1 codes
      obtain ⟨pieces, others, rfl⟩ := ih.2 tail
      exact ⟨_, ⟨_, pieces, ⟨d, rfl, code⟩, others, rfl⟩, by simp⟩

/-- A text matches itself and nothing else that is UTF-8. -/
theorem matches_text {tag : Nat} {literal : Bytes} (accepted : Accepted (text tag literal))
    {t : Bytes} (valid : t.isUtf8 = true) : (text tag literal).Matches t ↔ literal = t := by
  rw [(sound_text tag literal).matches_iff accepted nofun (conditionFree_text tag literal), expr,
    mem_language_textExpr]
  constructor
  · intro codes
    exact Bytes.eq_of_codes (isUtf8_of_accepted accepted) valid codes.symm
  · rintro rfl
    rfl

/-! ### Combinations -/

/-- True of a text that is cut into parts which the rules of entries match one after another. -/
def Splits (entries : List (Entry Rule)) (t : Bytes) : Prop :=
  ∃ parts, t.Cuts parts ∧ List.Forall₂ (fun part e => e.rule.Matches part) parts entries

/-- What a combinator asks of a text, given what its entries match. -/
def Meets (how : Combinator) (entries : List (Entry Rule)) (t : Bytes) : Prop :=
  match how with
  | .seq => Splits entries t
  | .oneOf => ∃ e ∈ entries, e.rule.Matches t
  | .optional => t = [] ∨ Splits entries t
  | .zeroOrMore _ => ∃ parts, t.Cuts parts ∧ ∀ part ∈ parts, Splits entries part
  | .oneOrMore _ => ∃ parts, parts ≠ [] ∧ t.Cuts parts ∧ ∀ part ∈ parts, Splits entries part

theorem language_exprOf (e : Entry Rule) : (exprOf e).language = e.rule.expr.language := by
  unfold exprOf entryExpr
  split <;> rfl

/-- The pieces of a list of characters that is read as it stands are read as they stand. -/
theorem legible_of_mem_flatten {pieces : List (List Scalar)} (h : Bytes.Legible pieces.flatten)
    {piece : List Scalar} (mem : piece ∈ pieces) : Bytes.Legible piece := by
  obtain ⟨before, after, rfl⟩ := List.append_of_mem mem
  rw [List.flatten_append, List.flatten_cons] at h
  exact Bytes.legible_of_append_left (Bytes.legible_of_append_right h)

theorem forall₂_iff_of_mem {α β : Type} {R S : α → β → Prop} {as : List α} {bs : List β}
    (same : ∀ a ∈ as, ∀ b ∈ bs, R a b ↔ S a b) : List.Forall₂ R as bs ↔ List.Forall₂ S as bs := by
  induction as generalizing bs with
  | nil => simp
  | cons a as ih =>
    cases bs with
    | nil => simp
    | cons b bs =>
      rw [List.forall₂_cons, List.forall₂_cons, same a (by simp) b (by simp),
        ih fun a mem b mem' => same a (List.mem_cons_of_mem _ mem) b (List.mem_cons_of_mem _ mem')]

section

variable {entries : List (Entry Rule)}
  (known : ∀ e ∈ entries, ∀ t : Bytes, e.rule.Matches t ↔ t.scalars ∈ e.rule.expr.language)

include known

theorem splits_iff {w : List Scalar} (legible : Bytes.Legible w) :
    Splits entries (Bytes.ofScalars w) ↔ w ∈ (Expr.concat (entries.map exprOf)).language := by
  rw [Expr.mem_language_concat]
  have each {pieces : List (List Scalar)} (flat : w = pieces.flatten) :
      List.Forall₂ (fun part e => e.rule.Matches part) (pieces.map Bytes.ofScalars) entries ↔
        List.Forall₂ (fun piece e => piece ∈ e.language) pieces (entries.map exprOf) := by
    rw [List.forall₂_map_left_iff, List.forall₂_map_right_iff]
    refine forall₂_iff_of_mem fun piece mem e mem' => ?_
    have whole : (Bytes.ofScalars piece).scalars = piece :=
      legible_of_mem_flatten (flat ▸ legible) mem
    rw [known e mem', whole, language_exprOf]
  constructor
  · rintro ⟨_, ⟨pieces, flat, rfl⟩, all⟩
    rw [show (Bytes.ofScalars w).scalars = w from legible] at flat
    exact ⟨pieces, (each flat).1 all, flat⟩
  · rintro ⟨pieces, all, flat⟩
    refine ⟨_, ⟨pieces, ?_, rfl⟩, (each flat).2 all⟩
    exact (show (Bytes.ofScalars w).scalars = w from legible).trans flat

theorem splits_iff_scalars (t : Bytes) :
    Splits entries t ↔ t.scalars ∈ (Expr.concat (entries.map exprOf)).language := by
  rw [← splits_iff known (Bytes.legible_scalars t), Bytes.ofScalars_scalars]

/-- A text of several parts, each of which the entries split. -/
theorem cuts_iff_multiples (allowed : Nat → Prop) (t : Bytes) :
    (∃ parts : List Bytes, allowed parts.length ∧ t.Cuts parts ∧
        ∀ part ∈ parts, Splits entries part) ↔
      t.scalars ∈ multiples (Expr.concat (entries.map exprOf)).language allowed := by
  rw [mem_multiples]
  have each {pieces : List (List Scalar)} (flat : t.scalars = pieces.flatten) :
      (∀ part ∈ pieces.map Bytes.ofScalars, Splits entries part) ↔
        ∀ piece ∈ pieces, piece ∈ (Expr.concat (entries.map exprOf)).language := by
    rw [List.forall_mem_map]
    refine forall_congr' fun piece => imp_congr_right fun mem => ?_
    exact splits_iff known (legible_of_mem_flatten (flat ▸ Bytes.legible_scalars t) mem)
  constructor
  · rintro ⟨_, ok, ⟨pieces, flat, rfl⟩, all⟩
    exact ⟨pieces, by simpa using ok, flat, (each flat).1 all⟩
  · rintro ⟨pieces, ok, flat, all⟩
    exact ⟨_, by simpa using ok, ⟨pieces, flat, rfl⟩, (each flat).2 all⟩

/-- What a combinator asks of a text is that it is in the language of the combination. -/
theorem meets_iff {how : Combinator} (several : entries ≠ []) (t : Bytes) :
    Meets how entries t ↔
      t.scalars ∈ (how.repeats (.group 0 [] (how.joins (entries.map exprOf)))).language := by
  have empty : t = [] ↔ t.scalars = [] := by
    refine ⟨by rintro rfl; rfl, fun none => ?_⟩
    rw [← Bytes.ofScalars_scalars t, none, Bytes.ofScalars_nil]
  cases how with
  | seq => exact splits_iff_scalars known t
  | oneOf =>
    have nonempty : entries.map exprOf ≠ [] := by simpa using several
    simp only [Meets, Combinator.repeats, Expr.language, Combinator.joins, if_true,
      Expr.mem_language_choice nonempty, List.mem_map, exists_exists_and_eq_and]
    refine exists_congr fun e => and_congr_right fun mem => ?_
    rw [known e mem, language_exprOf]
  | optional =>
    simp only [Meets, Combinator.repeats, Expr.language, Language.mem_add, Language.mem_one, empty]
    rw [or_comm, splits_iff_scalars known t]
    rfl
  | zeroOrMore isLazy =>
    have whole := cuts_iff_multiples known (fun _ => True) t
    simp only [true_and] at whole
    exact whole
  | oneOrMore isLazy =>
    refine Iff.trans ?_ (cuts_iff_multiples known (1 ≤ ·) t)
    refine exists_congr fun parts => and_congr_left fun _ => ?_
    exact List.length_pos_iff.symm

end

theorem Sound.language_combine {tag : Nat} {how : Combinator} {entries : List (Entry Rule)}
    (sound : Sound (combine tag how entries)) (read : IsRead (combine tag how entries))
    (accepted : ∀ e ∈ entries, Accepted e.rule) :
    (expr (combine tag how entries)).language =
      (how.repeats (.group 0 [] (how.joins (entries.map exprOf)))).language := by
  have even : ∀ e ∈ reach entries, Even e.rule := sound.even
  obtain ⟨-, same⟩ := read.combine even
  refine (same.trans ((regroups_shown how fun e mem tag literal eq => ?_).group.repeats
    how)).language_eq
  exact isUtf8_of_accepted (eq ▸ accepted e mem)

theorem Sound.matches_combine {tag : Nat} {how : Combinator} {entries : List (Entry Rule)}
    (sound : Sound (combine tag how entries)) (free : ConditionFree (combine tag how entries))
    (accepted : Accepted (combine tag how entries)) (several : entries ≠ [])
    (each : ∀ e ∈ entries, Accepted e.rule ∧ IsStandard e.rule) (t : Bytes) :
    (combine tag how entries).Matches t ↔ Meets how entries t := by
  have known : ∀ e ∈ entries, ∀ t : Bytes,
      e.rule.Matches t ↔ t.scalars ∈ e.rule.expr.language := fun e mem =>
    (sound.entry (mem_reach mem)).matches_iff (each e mem).1 (each e mem).2 (free.entry mem)
  obtain ⟨c, compiled⟩ := accepted
  rw [sound.matches_iff ⟨c, compiled⟩ nofun free, meets_iff known several,
    sound.language_combine (sound.searches compiled).read fun e mem => (each e mem).1]

/-! ### Names -/

section

variable {entries entries' : List (Entry Rule)}
  (same : entries'.map Entry.rule = entries.map Entry.rule)

include same

theorem splits_of_rules (t : Bytes) : Splits entries' t ↔ Splits entries t := by
  have rules (ds : List (Entry Rule)) (parts : List Bytes) :
      List.Forall₂ (fun part e => e.rule.Matches part) parts ds ↔
        List.Forall₂ (fun part r => Matches r part) parts (ds.map Entry.rule) := by
    rw [List.forall₂_map_right_iff]
  unfold Splits
  simp only [rules, same]

/-- What a combinator asks of a text has nothing to do with names. -/
theorem meets_of_rules (how : Combinator) (t : Bytes) : Meets how entries' t ↔ Meets how entries t := by
  have oneOf (ds : List (Entry Rule)) :
      (∃ e ∈ ds, e.rule.Matches t) ↔ ∃ r ∈ ds.map Entry.rule, Matches r t := by
    simp only [List.mem_map, exists_exists_and_eq_and]
  unfold Meets
  cases how with
  | oneOf => simp only [oneOf, same]
  | _ => simp only [splits_of_rules same]

theorem map_rule_reach : (reach entries').map Entry.rule = (reach entries).map Entry.rule := by
  induction entries generalizing entries' with
  | nil =>
    cases List.map_eq_nil_iff.1 same
    rfl
  | cons e rest ih =>
    obtain ⟨e', rest', rfl, rule, tail⟩ := List.map_eq_cons_iff.1 same
    obtain ⟨name, r⟩ := e
    obtain ⟨name', r'⟩ := e'
    cases rule
    rw [reach_cons, reach_cons, List.map_cons, List.map_cons, List.map_append, List.map_append,
      ih tail]

theorem ConditionFree.of_rules {tag tag' : Nat} {how : Combinator}
    (h : ConditionFree (combine tag how entries)) : ConditionFree (combine tag' how entries') := by
  intro e mem leaf source eq
  obtain rfl | mem := List.mem_cons.1 mem
  · cases eq
  · have found : e.rule ∈ (reach entries).map Entry.rule :=
      map_rule_reach same ▸ List.mem_map_of_mem mem
    obtain ⟨d, mem', rule⟩ := List.mem_map.1 found
    exact h d (List.mem_cons_of_mem _ mem') leaf source (rule.trans eq)

end

/-! ### A rule without conditions -/

theorem conditionFree_regex {tag : Nat} {source : Bytes} {tokens : List Token}
    (accepted : Accepted (regex tag source)) (same : leafTokens source = tokens)
    (free : (readExpr tokens).isFree = true) : ConditionFree (regex tag source) := by
  intro e mem tag' source' eq
  cases List.mem_singleton.1 mem
  cases eq
  rw [← same, readExpr_leafTokens accepted, Expr.isFree_unnumbered] at free
  exact free

theorem conditionFree_combine (tag : Nat) (how : Combinator) {entries : List (Entry Rule)}
    (free : ∀ e ∈ entries, ConditionFree e.rule) : ConditionFree (combine tag how entries) :=
  forall_below (fun r => ∀ tag source, r = regex tag source → (leafExpr source).isFree = true) nofun
    free

theorem Sample.conditionFree_whole : ConditionFree Sample.whole := by
  have free : ConditionFree xs := conditionFree_regex (compiles_xs.imp fun _ h => h.1)
    plainLeaf_xs.2 (by decide)
  have free' : ConditionFree digit := conditionFree_regex (compiles_digit.imp fun _ h => h.1)
    plainLeaf_digit.2 (by decide)
  refine conditionFree_combine 5 .seq ?_
  simp only [List.forall_mem_cons, List.not_mem_nil, false_implies, implies_true, and_true]
  refine ⟨conditionFree_combine 2 .oneOf ?_, free', conditionFree_text 6 "."⟩
  simp only [List.forall_mem_cons, List.not_mem_nil, false_implies, implies_true, and_true]
  refine ⟨conditionFree_text 3 "a", conditionFree_combine 4 _ ?_⟩
  simpa using free

theorem Sample.standard_digit : Accepted Sample.digit ∧ IsStandard Sample.digit := by
  obtain ⟨c, compiled, -, lead⟩ := compiles_digit
  refine ⟨⟨c, compiled⟩, fun _ _ c' _ compiled' text => ?_⟩
  cases compiled.symm.trans compiled'
  rw [Regex.find?, lead]

/-- What a combination matches follows from what its entries match, whatever their names; and a text
    matches itself. -/
theorem matches_compositional :
    (∀ (tag : Nat) (how : Combinator) (entries : List (Entry Rule)),
      Sound (combine tag how entries) → ConditionFree (combine tag how entries) →
      Accepted (combine tag how entries) → entries ≠ [] →
      (∀ e ∈ entries, Accepted e.rule ∧ IsStandard e.rule) →
      (∀ t, (combine tag how entries).Matches t ↔ Meets how entries t) ∧
      ∀ (tag' : Nat) (entries' : List (Entry Rule)),
        entries'.map Entry.rule = entries.map Entry.rule → Sound (combine tag' how entries') →
        Accepted (combine tag' how entries') →
        ∀ t, (combine tag' how entries').Matches t ↔ (combine tag how entries).Matches t) ∧
    ∀ (tag : Nat) (literal t : Bytes), Accepted (text tag literal) → t.isUtf8 = true →
      ((text tag literal).Matches t ↔ literal = t) := by
  refine ⟨fun tag how entries sound free accepted several each => ?_,
    fun tag literal t accepted valid => matches_text accepted valid⟩
  have meets := sound.matches_combine free accepted several each
  refine ⟨meets, fun tag' entries' same sound' accepted' t => ?_⟩
  have several' : entries' ≠ [] := by
    rintro rfl
    exact several (List.map_eq_nil_iff.1 same.symm)
  have each' : ∀ e ∈ entries', Accepted e.rule ∧ IsStandard e.rule := by
    intro e mem
    obtain ⟨d, mem', rule⟩ := List.mem_map.1 (same ▸ List.mem_map_of_mem mem :
      e.rule ∈ entries.map Entry.rule)
    exact rule ▸ each d mem'
  rw [meets, sound'.matches_combine (free.of_rules same) accepted' several' each',
    meets_of_rules same]

theorem matches_compositional_sample :
    (∀ t, Sample.whole.Matches t ↔ Meets .seq Sample.whole.entries t) ∧
      ((text 6 ".").Matches "." ↔ (("." : Bytes) = ".")) := by
  refine ⟨(matches_compositional.1 5 .seq Sample.whole.entries Sample.sound_whole
    Sample.conditionFree_whole Sample.accepted_whole (by simp [Sample.whole, entries]) ?_).1,
    matches_compositional.2 6 "." "." Sample.accepted_stop (by decide)⟩
  simp only [Sample.whole, entries, List.forall_mem_cons, List.not_mem_nil, false_implies,
    implies_true, and_true]
  exact ⟨⟨Sample.accepted_choice, by simp [IsStandard, Sample.choice]⟩, Sample.standard_digit,
    Sample.accepted_stop, by simp [IsStandard]⟩

end Rule

end Rulebook

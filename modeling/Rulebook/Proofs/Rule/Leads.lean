import Rulebook.Proofs.Pattern.Leads
import Rulebook.Proofs.Rule.Composition

/-!
# Where a rule leads

Where the expression of a combination leads follows from where those of its entries lead
(`Rule.Sound.regroups_combine`), and a rule matches a text as a whole if its expression leads from the
start of the text to the end (`Rule.Sound.matches_iff_leads`), whatever conditions it holds.
-/

namespace Rulebook

open Pattern

namespace Rule

/-- The expression of a combination is put together from those of its entries. -/
theorem Sound.regroups_combine {tag : Nat} {how : Combinator} {entries : List (Entry Rule)}
    (sound : Sound (combine tag how entries)) (read : IsRead (combine tag how entries))
    (valid : TextsUtf8 (combine tag how entries)) :
    Expr.Regroups (expr (combine tag how entries))
      (how.repeats (.group 0 [] (how.joins (entries.map exprOf)))) := by
  have even : ∀ e ∈ reach entries, Even e.rule := sound.even
  have texts : ∀ e ∈ entries, ∀ tag literal, e.rule = text tag literal →
      literal.isUtf8 = true := fun e mem =>
    valid e (List.mem_cons_of_mem _ (mem_reach mem))
  exact (read.combine even).2.trans ((regroups_shown how texts).group.repeats how)

theorem leads_exprOf (e : Entry Rule) (c d : Cursor) :
    (exprOf e).Leads c d ↔ e.rule.expr.Leads c d := by
  unfold exprOf entryExpr
  split
  · rfl
  · exact Expr.leads_group ..

/-- The texts of entries one after another are cut into texts of the entries. -/
theorem mem_language_entries {entries : List (Entry Rule)} {w : List Scalar} :
    w ∈ (Expr.concat (entries.map exprOf)).language ↔
      ∃ pieces, List.Forall₂ (fun piece e => piece ∈ e.rule.expr.language) pieces entries ∧
        w = pieces.flatten := by
  rw [Expr.mem_language_concat]
  simp only [List.forall₂_map_right_iff, language_exprOf]

section

variable {tag : Nat} {entries : List (Entry Rule)} {c d : Cursor}

/-- A sequence leads where its entries lead one after another. -/
theorem Sound.leads_seq (sound : Sound (combine tag .seq entries))
    (read : IsRead (combine tag .seq entries)) (valid : TextsUtf8 (combine tag .seq entries)) :
    (combine tag .seq entries).expr.Leads c d ↔
      (Expr.concat (entries.map exprOf)).Leads c d :=
  (sound.regroups_combine read valid).leads_iff.trans (Expr.leads_group ..)

/-- A choice leads where one of its entries leads. -/
theorem Sound.leads_oneOf (sound : Sound (combine tag .oneOf entries))
    (read : IsRead (combine tag .oneOf entries)) (valid : TextsUtf8 (combine tag .oneOf entries))
    (several : entries ≠ []) :
    (combine tag .oneOf entries).expr.Leads c d ↔ ∃ e ∈ entries, e.rule.expr.Leads c d := by
  have nonempty : entries.map exprOf ≠ [] := by simpa using several
  refine ((sound.regroups_combine read valid).leads_iff.trans (Expr.leads_group ..)).trans ?_
  refine (Expr.leads_choice nonempty).trans ?_
  simp only [List.mem_map, exists_exists_and_eq_and, leads_exprOf]

/-- The texts of a sequence are cut into texts of its entries. -/
theorem Sound.mem_language_seq (sound : Sound (combine tag .seq entries))
    (read : IsRead (combine tag .seq entries)) (valid : TextsUtf8 (combine tag .seq entries))
    {w : List Scalar} :
    w ∈ (combine tag .seq entries).expr.language ↔
      ∃ pieces, List.Forall₂ (fun piece e => piece ∈ e.rule.expr.language) pieces entries ∧
        w = pieces.flatten := by
  rw [(sound.regroups_combine read valid).language_eq]
  exact mem_language_entries

/-- The texts of a choice are those of its entries. -/
theorem Sound.mem_language_oneOf (sound : Sound (combine tag .oneOf entries))
    (read : IsRead (combine tag .oneOf entries)) (valid : TextsUtf8 (combine tag .oneOf entries))
    (several : entries ≠ []) {w : List Scalar} :
    w ∈ (combine tag .oneOf entries).expr.language ↔
      ∃ e ∈ entries, w ∈ e.rule.expr.language := by
  have nonempty : entries.map exprOf ≠ [] := by simpa using several
  rw [(sound.regroups_combine read valid).language_eq]
  refine (Expr.mem_language_choice nonempty).trans ?_
  simp only [List.mem_map, exists_exists_and_eq_and, language_exprOf]

/-- The texts of a repetition of one rule are made of texts of the rule. -/
theorem Sound.mem_language_many {isLazy : Bool} {e : Entry Rule}
    (sound : Sound (combine tag (.zeroOrMore isLazy) [e]))
    (read : IsRead (combine tag (.zeroOrMore isLazy) [e]))
    (valid : TextsUtf8 (combine tag (.zeroOrMore isLazy) [e])) {w : List Scalar} :
    w ∈ (combine tag (.zeroOrMore isLazy) [e]).expr.language ↔
      ∃ pieces : List (List Scalar), w = pieces.flatten ∧
        ∀ piece ∈ pieces, piece ∈ e.rule.expr.language := by
  rw [(sound.regroups_combine read valid).language_eq]
  refine mem_multiples.trans ?_
  simp [Combinator.joins, Expr.concat, language_exprOf]

end

/-! ### Characters that are never taken -/

/-- True of a rule without conditions in which nothing takes the character with a code point. -/
def Avoids (code : Nat) (r : Rule) : Prop :=
  ∀ e ∈ (⟨[], r⟩ : Entry Rule) :: reach r.entries,
    (∀ tag source, e.rule = regex tag source →
      (readExpr (leafTokens source)).avoids code = true) ∧
    ∀ tag literal, e.rule = text tag literal → ∀ s ∈ literal.scalars, s.code ≠ code

variable {code : Nat}

theorem Avoids.entry {r : Rule} (avoids : Avoids code r) {e : Entry Rule} (mem : e ∈ r.entries) :
    Avoids code e.rule := by
  intro d below
  obtain rfl | below := List.mem_cons.1 below
  · exact avoids e (List.mem_cons_of_mem _ (mem_reach mem))
  · exact avoids d (List.mem_cons_of_mem _ (reach_trans_rule r (mem_reach mem) below))

theorem avoids_text (tag : Nat) {literal : Bytes} (h : ∀ s ∈ literal.scalars, s.code ≠ code) :
    Avoids code (text tag literal) := by
  intro e mem
  cases List.mem_singleton.1 mem
  exact ⟨nofun, fun tag literal eq => by cases eq; exact h⟩

theorem avoids_regex (tag : Nat) {source : Bytes} (h : (regex tag source).expr.avoids code = true) :
    Avoids code (regex tag source) := by
  intro e mem
  cases List.mem_singleton.1 mem
  exact ⟨fun tag source eq => by cases eq; exact h, nofun⟩

theorem avoids_combine (tag : Nat) (how : Combinator) {entries : List (Entry Rule)}
    (h : ∀ e ∈ entries, Avoids code e.rule) : Avoids code (combine tag how entries) :=
  forall_below (fun r => (∀ tag source, r = regex tag source →
      (readExpr (leafTokens source)).avoids code = true) ∧
    ∀ tag literal, r = text tag literal → ∀ s ∈ literal.scalars, s.code ≠ code)
    ⟨nofun, nofun⟩ h

theorem avoids_repeats (how : Combinator) (e : Expr) :
    (how.repeats e).avoids code = e.avoids code := by
  cases how <;> rfl

theorem avoids_joins (how : Combinator) (es : List Expr) :
    (how.joins es).avoids code = es.all (Expr.avoids code) := by
  unfold Combinator.joins
  split
  · exact Expr.avoids_choice es
  · exact Expr.avoids_concat es

theorem avoids_exprOf (e : Entry Rule) : (exprOf e).avoids code = e.rule.expr.avoids code := by
  unfold exprOf entryExpr
  split <;> rfl

/-- The expression of a rule takes no character that the rule avoids. -/
theorem Sound.avoids_expr {r : Rule} (sound : Sound r) (read : r.IsRead) (valid : TextsUtf8 r)
    (avoids : Avoids code r) : r.expr.avoids code = true := by
  induction r using of_entries with
  | step r ih =>
  cases r with
  | regex tag source => exact (avoids _ (List.mem_cons_self ..)).1 tag source rfl
  | text tag literal =>
    rw [expr, textExpr, Expr.avoids_concat, textExprs, List.all_map, List.all_eq_true]
    intro s mem
    have differs := (avoids _ (List.mem_cons_self ..)).2 tag literal rfl s mem
    simp only [Function.comp_apply, Expr.avoids, CharSet.contains, CharSet.single, List.any_cons,
      List.any_nil, Bool.or_false, Bool.not_eq_true', Bool.and_eq_false_imp, decide_eq_true_eq,
      decide_eq_false_iff_not]
    omega
  | combine tag how entries =>
    have reads := (read.combine sound.even).1
    rw [(sound.regroups_combine read valid).avoids_eq, avoids_repeats, Expr.avoids, avoids_joins,
      List.all_map, List.all_eq_true]
    intro e mem
    rw [Function.comp_apply, avoids_exprOf]
    exact ih e mem (sound.entry (mem_reach mem)) (reads e mem) (valid.entry mem) (avoids.entry mem)

theorem Avoids.conditionFree {r : Rule} (sound : Sound r) (avoids : Avoids code r) :
    ConditionFree r := by
  intro e mem tag source eq
  have accepted : Accepted (regex tag source) := by
    obtain rfl | mem := List.mem_cons.1 mem
    · exact eq ▸ sound.leaf tag source eq
    · exact eq ▸ sound.leaves e mem tag source eq
  rw [← Expr.isFree_unnumbered, ← readExpr_leafTokens accepted]
  exact Expr.isFree_of_avoids ((avoids e mem).1 tag source eq)

/-! ### Whole texts -/

/-- A combination matches a text as a whole if its expression leads from the start of the text to the
    end. -/
theorem Sound.matches_iff_leads {r : Rule} (sound : Sound r) (kind : r.kind ≠ .regex)
    (accepted : Accepted r) (t : Bytes) :
    r.Matches t ↔ ∃ d, d.rest = [] ∧ r.expr.Leads (.start t) d := by
  obtain ⟨c, compiled⟩ := accepted
  have searches := sound.searches compiled
  have spec := Program.find?_spec r.expr.numbered.anchored (c := .start t) (wide_scalars t)
  rw [matches_iff_occursIn compiled, Regex.occursIn, Regex.find?, (sound.lead_none kind compiled).2,
    searches.whole]
  cases found : (Program.ofExpr r.expr.numbered.anchored).find? (.start t) with
  | none =>
    rw [found] at spec
    refine ⟨fun matched => absurd matched (by simp), ?_⟩
    rintro ⟨d, last, leads⟩
    obtain ⟨m, passage⟩ := (Expr.leads_numbered ..).2 leads
    exact absurd (Expr.reaches_iff.2 (passes_anchored.2 ⟨rfl, last, passage⟩))
      (spec _ (Cursor.mem_onward.2 ⟨[], rfl, rfl⟩) d m)
  | some f =>
    refine ⟨fun _ => ?_, fun _ => rfl⟩
    obtain ⟨place, mem, matched⟩ := Program.matchAt_of_find? found
    obtain ⟨first, last, passage⟩ := passes_anchored.1 (Expr.reaches_iff.1 matched.path)
    obtain rfl := eq_start_of_before mem first
    exact ⟨f.stop, last, (Expr.leads_numbered ..).1 ⟨_, passage⟩⟩

end Rule

end Rulebook

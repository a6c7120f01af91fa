import Mathlib
import Rulebook.Ebnf.Verify
import Rulebook.Proofs.Ebnf.Lexing
import Rulebook.Proofs.Registry
import Rulebook.Proofs.Rule.Tokens

/-!
# What a rendering means

The productions of a text are equations between languages of tokens, and the text means their least
solution. The rendering of a registry means its rules: each name stands for the language of its rule
over the leaves of the rule (`Registry.rendering_means_rules`). Where the rendering leaves out
parentheses, it is because a sequence in a sequence is a longer sequence and an alternative of an
alternative is one more alternative.
-/

namespace Rulebook

/-! ### The language of a rule -/

/-- The language of a combination, over the languages of its parts. -/
def Combinator.language : Combinator → List (Language Bytes) → Language Bytes
  | seq, parts => parts.prod
  | oneOf, parts => parts.sum
  | optional, parts => 1 + parts.prod
  | zeroOrMore _, parts => KStar.kstar parts.prod
  | oneOrMore _, parts => parts.prod * KStar.kstar parts.prod

namespace Rule

mutual

/-- The sequences of leaves that a rule stands for. A leaf with a pattern is its pattern between
    slashes. -/
def leafLanguage : Rule → Language Bytes
  | text _ literal => {[literal]}
  | regex _ source => {["/" ++ source ++ "/"]}
  | combine _ how entries => how.language (leafLanguages entries)

/-- The sequences of leaves that each entry stands for. -/
def leafLanguages : List (Entry Rule) → List (Language Bytes)
  | [] => []
  | e :: rest => e.rule.leafLanguage :: leafLanguages rest

end

end Rule

/-! ### The language of a text -/

namespace Bnf

/-- The language of an expression in brackets. -/
def Bracket.language : Bracket → Language Bytes → Language Bytes
  | round, l => l
  | square, l => 1 + l
  | curly, l => KStar.kstar l

mutual

/-- The language of a term, given what names stand for. -/
def Term.language (env : Bytes → Language Bytes) : Term → Language Bytes
  | .name n => env n
  | .token t => {[t]}
  | .enclosed b body => b.language (body.language env)

/-- The language of an alternative, given what names stand for. -/
def Alternative.language (env : Bytes → Language Bytes) : Alternative → Language Bytes
  | .one t => t.language env
  | .more front t => front.language env * t.language env

/-- The language of an expression, given what names stand for. -/
def Expression.language (env : Bytes → Language Bytes) : Expression → Language Bytes
  | .one a => a.language env
  | .more front a => front.language env + a.language env

end

/-- The language of a production, given what names stand for. -/
def Production.language (env : Bytes → Language Bytes) (p : Production) : Language Bytes :=
  match p.body with
  | none => 1
  | some e => e.language env

mutual

theorem Term.language_mono {env env' : Bytes → Language Bytes} (h : env ≤ env') :
    ∀ t : Term, t.language env ≤ t.language env'
  | .name n => h n
  | .token _ => le_refl _
  | .enclosed .round body => body.language_mono h
  | .enclosed .square body => add_le_add (le_refl _) (body.language_mono h)
  | .enclosed .curly body => kstar_mono (body.language_mono h)

theorem Alternative.language_mono {env env' : Bytes → Language Bytes} (h : env ≤ env') :
    ∀ a : Alternative, a.language env ≤ a.language env'
  | .one t => t.language_mono h
  | .more front t => mul_le_mul' (front.language_mono h) (t.language_mono h)

theorem Expression.language_mono {env env' : Bytes → Language Bytes} (h : env ≤ env') :
    ∀ e : Expression, e.language env ≤ e.language env'
  | .one a => a.language_mono h
  | .more front a => add_le_add (front.language_mono h) (a.language_mono h)

end

theorem Production.language_mono {env env' : Bytes → Language Bytes} (h : env ≤ env')
    (p : Production) : p.language env ≤ p.language env' := by
  unfold language
  split
  · exact le_refl _
  · exact Expression.language_mono h _

/-- What names stand for by the productions, given what names stand for. -/
def substitute (ps : List Production) :
    (Bytes → Language Bytes) →o (Bytes → Language Bytes) where
  toFun env n := ⨆ p ∈ ps, ⨆ _ : p.name = n, p.language env
  monotone' _ _ h _ := iSup₂_mono fun p _ => iSup_mono fun _ => p.language_mono h

/-- What names stand for: the least solution of the productions. -/
noncomputable def meaning (ps : List Production) : Bytes → Language Bytes :=
  OrderHom.lfp (substitute ps)

/-- A name with one production stands for the language of its production. -/
theorem meaning_name {ps : List Production} (nodup : (ps.map Production.name).Nodup) {p : Production}
    (mem : p ∈ ps) : meaning ps p.name = p.language (meaning ps) := by
  have solution : substitute ps (meaning ps) p.name = meaning ps p.name :=
    congrFun (OrderHom.map_lfp (substitute ps)) p.name
  rw [← solution]
  change (⨆ q ∈ ps, ⨆ _ : q.name = p.name, q.language (meaning ps)) = _
  refine le_antisymm (iSup₂_le fun q mem' => iSup_le fun same => ?_) ?_
  · rw [List.inj_on_of_nodup_map nodup mem' mem same]
  · exact le_iSup₂_of_le p mem (le_iSup_of_le rfl (le_refl _))

/-! ### Lexemes with a meaning -/

/-- True of lexemes that are an alternative with the given language, where the condition holds. -/
def IsAlternative (K : (Bytes → Language Bytes) → Prop) (ls : List Lexeme) (l : Language Bytes) :
    Prop :=
  ∃ a : Alternative, a.lexemes = ls ∧ ∀ env, K env → a.language env = l

/-- True of lexemes that are an expression with the given language, where the condition holds. -/
def IsExpression (K : (Bytes → Language Bytes) → Prop) (ls : List Lexeme) (l : Language Bytes) :
    Prop :=
  ∃ e : Expression, e.lexemes = ls ∧ ∀ env, K env → e.language env = l

/-- An alternative after another. -/
def Alternative.append (a : Alternative) : Alternative → Alternative
  | .one t => .more a t
  | .more front t => .more (a.append front) t

/-- The alternatives of an expression after those of another. -/
def Expression.append (e : Expression) : Expression → Expression
  | .one a => .more e a
  | .more front a => .more (e.append front) a

theorem Alternative.lexemes_append (a : Alternative) :
    ∀ b : Alternative, (a.append b).lexemes = a.lexemes ++ b.lexemes
  | .one t => rfl
  | .more front t => by
      rw [append, lexemes, a.lexemes_append front, lexemes, List.append_assoc]

theorem Alternative.language_append (env : Bytes → Language Bytes) (a : Alternative) :
    ∀ b : Alternative, (a.append b).language env = a.language env * b.language env
  | .one t => rfl
  | .more front t => by
      rw [append, language, a.language_append env front, language, mul_assoc]

theorem Expression.lexemes_append (e : Expression) :
    ∀ d : Expression, (e.append d).lexemes = e.lexemes ++ Lexeme.mark .bar :: d.lexemes
  | .one a => rfl
  | .more front a => by
      rw [append, lexemes, e.lexemes_append front, lexemes, List.append_assoc, List.cons_append]

theorem Expression.language_append (env : Bytes → Language Bytes) (e : Expression) :
    ∀ d : Expression, (e.append d).language env = e.language env + d.language env
  | .one a => rfl
  | .more front a => by
      rw [append, language, e.language_append env front, language, add_assoc]

variable {K : (Bytes → Language Bytes) → Prop} {ls ms : List Lexeme} {l m : Language Bytes}

theorem IsAlternative.append (h : IsAlternative K ls l) (h' : IsAlternative K ms m) :
    IsAlternative K (ls ++ ms) (l * m) := by
  obtain ⟨a, rfl, means⟩ := h
  obtain ⟨b, rfl, means'⟩ := h'
  refine ⟨a.append b, a.lexemes_append b, fun env agrees => ?_⟩
  rw [a.language_append env b, means env agrees, means' env agrees]

theorem IsExpression.bar (h : IsExpression K ls l) (h' : IsExpression K ms m) :
    IsExpression K (ls ++ Lexeme.mark .bar :: ms) (l + m) := by
  obtain ⟨e, rfl, means⟩ := h
  obtain ⟨d, rfl, means'⟩ := h'
  refine ⟨e.append d, e.lexemes_append d, fun env agrees => ?_⟩
  rw [e.language_append env d, means env agrees, means' env agrees]

theorem IsAlternative.expression (h : IsAlternative K ls l) : IsExpression K ls l := by
  obtain ⟨a, lexemes, means⟩ := h
  exact ⟨.one a, lexemes, means⟩

theorem IsExpression.enclosed (b : Bracket) (h : IsExpression K ls l) :
    IsAlternative K (.mark (.opening b) :: (ls ++ [Lexeme.mark (.closing b)])) (b.language l) := by
  obtain ⟨e, rfl, means⟩ := h
  exact ⟨.one (.enclosed b e), rfl, fun env agrees => congrArg b.language (means env agrees)⟩

theorem isAlternative_token (t : Bytes) : IsAlternative K [.token t] {[t]} :=
  ⟨.one (.token t), rfl, fun _ _ => rfl⟩

theorem isAlternative_word {n : Bytes} (h : ∀ env, K env → env n = l) :
    IsAlternative K [.word n] l :=
  ⟨.one (.name n), rfl, h⟩

/-- One alternative or more are one alternative. -/
theorem isAlternative_flatten {lss : List (List Lexeme)} {languages : List (Language Bytes)}
    (some_part : lss ≠ []) (h : List.Forall₂ (IsAlternative K) lss languages) :
    IsAlternative K lss.flatten languages.prod := by
  induction h with
  | nil => exact absurd rfl some_part
  | @cons ls l lss languages here others ih =>
    cases others with
    | nil => simpa using here
    | cons => exact here.append (ih (by simp))

/-- One expression or more with bars between them are one expression. -/
theorem isExpression_intercalate {lss : List (List Lexeme)} {languages : List (Language Bytes)}
    (some_part : lss ≠ []) (h : List.Forall₂ (IsExpression K) lss languages) :
    IsExpression K ([Lexeme.mark .bar].intercalate lss) languages.sum := by
  induction h with
  | nil => exact absurd rfl some_part
  | @cons ls l lss languages here others ih =>
    cases others with
    | nil => simpa using here
    | cons =>
      rw [List.intercalate_cons_cons, List.append_assoc]
      exact here.bar (ih (by simp))

end Bnf

/-! ### The right sides of rules -/

namespace Ebnf

open Bnf

variable {r : Registry} {spell : Bytes → Bytes}

/-- True if references to smaller rules stand for their languages. -/
def Agrees (r : Registry) (spell : Bytes → Bytes) (size : Nat) (env : Bytes → Language Bytes) :
    Prop :=
  ∀ (d : Entry Rule) (n : Bytes), sizeOf d.rule < size → referent? r d = some n →
    env (spell n) = d.rule.leafLanguage

/-- True of a rule whose right side means the rule, both at the root of a production and inside. -/
structure Means (r : Registry) (spell : Bytes → Bytes) (rule : Rule) : Prop where
  inside : IsAlternative (Agrees r spell (sizeOf rule)) ((ofRule r false rule).lexemes spell)
    rule.leafLanguage
  root : IsExpression (Agrees r spell (sizeOf rule)) ((ofRule r true rule).lexemes spell)
    rule.leafLanguage

theorem sizeOf_entry {tag : Nat} {how : Combinator} {entries : List (Entry Rule)} {e : Entry Rule}
    (mem : e ∈ entries) : sizeOf e.rule < sizeOf (Rule.combine tag how entries) := by
  have := List.sizeOf_lt_of_mem mem
  cases e
  simp only [Rule.combine.sizeOf_spec, Entry.mk.sizeOf_spec] at this ⊢
  omega

theorem Agrees.mono {size size' : Nat} (le : size ≤ size') {env : Bytes → Language Bytes}
    (h : Agrees r spell size' env) : Agrees r spell size env :=
  fun d n smaller => h d n (Nat.lt_of_lt_of_le smaller le)

theorem forall₂_ofEntries {R : List Lexeme → Language Bytes → Prop} {root : Bool}
    {entries : List (Entry Rule)}
    (reference : ∀ e ∈ entries, ∀ n, referent? r e = some n →
      R [.word (spell n)] e.rule.leafLanguage)
    (inlined : ∀ e ∈ entries, R ((ofRule r root e.rule).lexemes spell) e.rule.leafLanguage) :
    List.Forall₂ R (lexemesOf spell (ofEntries r root entries)) (Rule.leafLanguages entries) := by
  induction entries with
  | nil => exact .nil
  | cons e entries ih =>
    obtain ⟨reference, references⟩ := List.forall_mem_cons.1 reference
    obtain ⟨here, inlined⟩ := List.forall_mem_cons.1 inlined
    rw [ofEntries]
    refine .cons ?_ (ih references inlined)
    cases refers : referent? r e with
    | none => exact here
    | some n => exact reference n refers

theorem lexemesOf_ne_nil {root : Bool} {entries : List (Entry Rule)} (h : entries ≠ []) :
    lexemesOf spell (ofEntries r root entries) ≠ [] := by
  cases entries with
  | nil => exact absurd rfl h
  | cons e entries => simp [ofEntries, lexemesOf]

/-- The parts of a combination, once: in parentheses if there are several. -/
theorem isAlternative_once {K : (Bytes → Language Bytes) → Prop} {parts : List Ebnf}
    {l : Language Bytes} (h : IsAlternative K (lexemesOf spell parts).flatten l) (several : Prop)
    [Decidable several] :
    IsAlternative K ((if several then Ebnf.group (.seq parts) else .seq parts).lexemes spell) l := by
  split
  · exact h.expression.enclosed .round
  · exact h

/-- The right side of a combination means the combination, if those of its entries mean theirs. -/
theorem means_combine {tag : Nat} {how : Combinator} {entries : List (Entry Rule)}
    (some_entry : entries ≠ []) (parts : ∀ e ∈ entries, Means r spell e.rule) :
    Means r spell (.combine tag how entries) := by
  generalize eq : Agrees r spell (sizeOf (Rule.combine tag how entries)) = K
  have smaller {e : Entry Rule} (mem : e ∈ entries) {env : Bytes → Language Bytes} (h : K env) :
      Agrees r spell (sizeOf e.rule) env := by
    subst eq
    exact h.mono (Nat.le_of_lt (sizeOf_entry mem))
  have refers {e : Entry Rule} (mem : e ∈ entries) {n : Bytes} (h : referent? r e = some n) :
      IsAlternative K [.word (spell n)] e.rule.leafLanguage := by
    subst eq
    exact isAlternative_word fun env agrees => agrees e n (sizeOf_entry mem) h
  have row : IsAlternative K (lexemesOf spell (ofEntries r false entries)).flatten
      (Rule.leafLanguages entries).prod := by
    refine isAlternative_flatten (lexemesOf_ne_nil some_entry) (forall₂_ofEntries
      (fun e mem n => refers mem) fun e mem => ?_)
    obtain ⟨a, lexemes, means⟩ := (parts e mem).inside
    exact ⟨a, lexemes, fun env agrees => means env (smaller mem agrees)⟩
  have choice : IsExpression K ([Lexeme.mark .bar].intercalate
      (lexemesOf spell (ofEntries r true entries))) (Rule.leafLanguages entries).sum := by
    refine isExpression_intercalate (lexemesOf_ne_nil some_entry) (forall₂_ofEntries
      (fun e mem n h => (refers mem h).expression) fun e mem => ?_)
    obtain ⟨e', lexemes, means⟩ := (parts e mem).root
    exact ⟨e', lexemes, fun env agrees => means env (smaller mem agrees)⟩
  have once (several : Prop) [Decidable several] := isAlternative_once row several
  cases how with
  | seq =>
    refine ⟨?_, ?_⟩ <;> rw [eq]
    · exact once ((!false && 1 < (ofEntries r false entries).length) = true)
    · exact row.expression
  | oneOf =>
    refine ⟨?_, ?_⟩ <;> rw [eq]
    · exact choice.enclosed .round
    · exact choice
  | optional =>
    have enclosed := row.expression.enclosed .square
    exact ⟨eq ▸ enclosed, eq ▸ enclosed.expression⟩
  | zeroOrMore isLazy =>
    have enclosed := row.expression.enclosed .curly
    exact ⟨eq ▸ enclosed, eq ▸ enclosed.expression⟩
  | oneOrMore isLazy =>
    have both := isAlternative_flatten (by simp) (.cons
      (once (1 < (ofEntries r false entries).length)) (.cons (row.expression.enclosed .curly) .nil))
    rw [List.prod_cons, List.prod_singleton] at both
    exact ⟨eq ▸ both, eq ▸ both.expression⟩

/-- The right side of a rule that is built means the rule. -/
theorem means_ofRule {rule : Rule} (built : rule.Built) : Means r spell rule := by
  induction rule using Rule.of_entries with
  | step rule ih =>
  cases rule with
  | text tag literal =>
    exact ⟨isAlternative_token literal, (isAlternative_token literal).expression⟩
  | regex tag source =>
    exact ⟨isAlternative_token _, (isAlternative_token _).expression⟩
  | combine tag how entries =>
    obtain ⟨some_entry, parts⟩ := Rule.built_combine_iff.1 built
    exact means_combine some_entry fun e mem => ih e mem (parts e mem).1

/-! ### References -/

theorem mem_names_of_referent? {e : Entry Rule} {n : Bytes} (h : referent? r e = some n) :
    ⟨n, e.rule⟩ ∈ r.entries := by
  rw [referent?] at h
  split at h
  · rename_i own
    simp only [Bool.and_eq_true, beq_iff_eq] at own
    cases h
    exact Registry.mem_of_get? own.2
  · exact Registry.mem_of_nameOf? h

/-- Parts refer to what an entry is a reference to, or to what its rule refers to. -/
theorem mem_referencesOf_ofEntries {root : Bool} {entries : List (Entry Rule)} {n : Bytes} :
    n ∈ referencesOf (ofEntries r root entries) ↔ ∃ e ∈ entries, referent? r e = some n ∨
      referent? r e = none ∧ n ∈ (ofRule r root e.rule).references := by
  induction entries with
  | nil => simp [ofEntries, referencesOf]
  | cons e entries ih =>
    rw [ofEntries, referencesOf, List.mem_append, ih, List.exists_mem_cons_iff]
    refine or_congr_left ?_
    cases refers : referent? r e with
    | none => simp
    | some name => simp [references, eq_comm]

theorem references_combine {root : Bool} {how : Combinator} {parts : List Ebnf} {n : Bytes} :
    n ∈ (combine root how parts).references ↔ n ∈ referencesOf parts := by
  cases how <;> simp only [combine] <;> (try split) <;> simp [references, referencesOf]

/-- What the right side of a rule refers to is registered. -/
theorem mem_names_of_mem_references {root : Bool} {rule : Rule} {n : Bytes}
    (mem : n ∈ (ofRule r root rule).references) : n ∈ r.names := by
  induction rule using Rule.of_entries generalizing root with
  | step rule ih =>
  cases rule with
  | text tag literal => cases mem
  | regex tag source => cases mem
  | combine tag how entries =>
    rw [ofRule, references_combine] at mem
    obtain ⟨e, mem, refers | ⟨-, below⟩⟩ := mem_referencesOf_ofEntries.1 mem
    · exact List.mem_map_of_mem (mem_names_of_referent? refers)
    · exact ih e mem below

end Ebnf

/-! ### Renderings of a registry -/

namespace Registry

open Bnf Ebnf

variable {r : Registry} {spell : Bytes → Bytes}

/-- True of a production that is the rendering of a rule on a line. -/
structure Renders (r : Registry) (spell : Bytes → Bytes) (x : Entry Rule × Nat)
    (p : Bnf.Production) : Prop where
  place : p.place = ⟨x.2, 1⟩
  name : p.name = spell x.1.name
  body : ∃ body, p.body = some body ∧
    body.lexemes = (ofRule r true x.1.rule).lexemes spell ∧
    ∀ env, Agrees r spell (sizeOf x.1.rule) env → body.language env = x.1.rule.leafLanguage

/-- Names of a registry are those of some of its rules. -/
theorem Orderly.exists_entries (orderly : r.Orderly) (spell : Bytes → Bytes) {names : List Bytes}
    (registered : ∀ n ∈ names, n ∈ r.names) :
    ∃ es : List (Entry Rule), es.map Entry.name = names ∧ (∀ e ∈ es, e ∈ r.entries) ∧
      r.render spell names = Bytes.join "\n"
        (es.map fun e => renderProduction spell e.name (ofRule r true e.rule)) := by
  suffices h : ∃ es : List (Entry Rule), es.map Entry.name = names ∧ (∀ e ∈ es, e ∈ r.entries) ∧
      (names.filterMap fun n => (r.get? n).map fun rule =>
        renderProduction spell n (ofRule r true rule)) =
        es.map fun e => renderProduction spell e.name (ofRule r true e.rule) by
    obtain ⟨es, same, mem, texts⟩ := h
    exact ⟨es, same, mem, by rw [render, texts]⟩
  induction names with
  | nil => exact ⟨[], rfl, nofun, rfl⟩
  | cons n names ih =>
    obtain ⟨here, others⟩ := List.forall_mem_cons.1 registered
    obtain ⟨es, same, mem, texts⟩ := ih others
    obtain ⟨e, mem', rfl⟩ := List.mem_map.1 here
    refine ⟨e :: es, by rw [List.map_cons, same], List.forall_mem_cons.2 ⟨mem', mem⟩, ?_⟩
    rw [List.filterMap_cons, orderly.get?_eq mem', List.map_cons, ← texts]
    rfl

/-- What is rendered is read back: one production for each name, on its own line. -/
theorem Orderly.read_render (orderly : r.Orderly) (spelled : ∀ n ∈ r.names, IsName (spell n))
    {names : List Bytes} (registered : ∀ n ∈ names, n ∈ r.names) :
    ∃ (es : List (Entry Rule)) (ps : List Bnf.Production),
      es.map Entry.name = names ∧ (∀ e ∈ es, e ∈ r.entries) ∧
      Bnf.read (r.render spell names) = some ps ∧
      List.Forall₂ (Renders r spell) (es.zipIdx 1) ps := by
  obtain ⟨es, same, mem, text⟩ := orderly.exists_entries spell registered
  have names_of : ∀ p ∈ es.map fun e : Entry Rule => (⟨e.name, ofRule r true e.rule⟩ : Entry Ebnf),
      IsName (spell p.name) ∧ ∀ n ∈ p.rule.references, IsName (spell n) := by
    simp only [List.mem_map, forall_exists_index, and_imp]
    rintro _ e here rfl
    exact ⟨spelled _ (List.mem_map_of_mem (mem e here)),
      fun n refers => spelled n (mem_names_of_mem_references refers)⟩
  obtain ⟨chunks, lines, cut⟩ := lex_productions names_of 1
  rw [List.zipIdx_map, List.forall₂_map_right_iff] at lines
  have each : ∀ x ∈ es.zipIdx 1, x.1.rule.Built := fun x here =>
    orderly.built _ (mem _ (List.fst_mem_of_mem_zipIdx here))
  have bodies : ∃ ps, List.Forall₂ Writes chunks ps ∧
      List.Forall₂ (Renders r spell) (es.zipIdx 1) ps := by
    clear cut text
    generalize es.zipIdx 1 = lined at lines each
    induction lines with
    | nil => exact ⟨[], .nil, .nil⟩
    | @cons ls x chunks xs here _ ih =>
      obtain ⟨built, each⟩ := List.forall_mem_cons.1 each
      obtain ⟨ps, written, rendered⟩ := ih each
      obtain ⟨body, lexemes, means⟩ := (@means_ofRule r spell _ built).root
      refine ⟨⟨⟨x.2, 1⟩, spell x.1.name, some body⟩ :: ps, .cons ⟨?_, here.2⟩ written,
        .cons ⟨rfl, rfl, body, rfl, lexemes, means⟩ rendered⟩
      rw [here.1, Production.lexemes, Option.map_some, Option.getD_some, lexemes]
      rfl
  obtain ⟨ps, written, rendered⟩ := bodies
  refine ⟨es, ps, same, mem, ?_, rendered⟩
  rw [List.map_map] at cut
  have cut : lex ⟨1, 1⟩ .idle (r.render spell names) = some chunks.flatten := text ▸ cut
  rw [Bnf.read, cut]
  simp [foldlM_productions written]

/-- True of a list of productions that means what the rules of a registry mean. -/
structure MeansRules (r : Registry) (spell : Bytes → Bytes) (ps : List Bnf.Production) : Prop where
  names : ps.map Bnf.Production.name = r.names.map spell
  nodup : (ps.map Bnf.Production.name).Nodup
  languages : ∀ name rule, r.get? name = some rule →
    meaning ps (spell name) = rule.leafLanguage

theorem map_name_of_renders {xs : List (Entry Rule × Nat)} {ps : List Bnf.Production}
    (h : List.Forall₂ (Renders r spell) xs ps) :
    ps.map Bnf.Production.name = (xs.map Prod.fst).map fun e => spell e.name := by
  induction h with
  | nil => rfl
  | cons here _ ih => simp [here.name, ih]

theorem exists_of_renders {xs : List (Entry Rule × Nat)} {ps : List Bnf.Production}
    (h : List.Forall₂ (Renders r spell) xs ps) {e : Entry Rule} (mem : e ∈ xs.map Prod.fst) :
    ∃ p ∈ ps, ∃ line, Renders r spell (e, line) p := by
  induction h with
  | nil => cases mem
  | @cons x p xs ps here _ ih =>
    obtain rfl | mem := List.mem_cons.1 mem
    · exact ⟨p, List.mem_cons_self .., x.2, here⟩
    · obtain ⟨p, mem, rendered⟩ := ih mem
      exact ⟨p, List.mem_cons_of_mem _ mem, rendered⟩

theorem exists_rendered {xs : List (Entry Rule × Nat)} {ps : List Bnf.Production}
    (h : List.Forall₂ (Renders r spell) xs ps) {p : Bnf.Production} (mem : p ∈ ps) :
    ∃ x ∈ xs, Renders r spell x p := by
  induction h with
  | nil => cases mem
  | @cons x p' xs ps here _ ih =>
    obtain rfl | mem := List.mem_cons.1 mem
    · exact ⟨x, List.mem_cons_self .., here⟩
    · obtain ⟨y, mem, rendered⟩ := ih mem
      exact ⟨y, List.mem_cons_of_mem _ mem, rendered⟩

theorem Orderly.rendering_means (orderly : r.Orderly) (spelled : ∀ n ∈ r.names, IsName (spell n))
    (injective : Function.Injective spell) :
    ∃ ps, Bnf.read (r.render spell r.names) = some ps ∧ MeansRules r spell ps := by
  obtain ⟨es, ps, same, mem, read, rendered⟩ := orderly.read_render spelled fun n here => here
  have map_names : ps.map Bnf.Production.name = r.names.map spell := by
    rw [map_name_of_renders rendered, List.zipIdx_map_fst, ← same, List.map_map]
    rfl
  have nodup : (ps.map Bnf.Production.name).Nodup := by
    rw [map_names]
    exact orderly.nodup.map injective
  refine ⟨ps, read, map_names, nodup, fun name rule => ?_⟩
  -- a rule refers to smaller rules only, so the equations settle the names by size
  induction size : sizeOf rule using Nat.strongRecOn generalizing name rule with
  | _ size ih =>
  intro found
  have registered : name ∈ es.map Entry.name :=
    same ▸ List.mem_map_of_mem (mem_of_get? found)
  obtain ⟨e, here, rfl⟩ := List.mem_map.1 registered
  obtain rfl : e.rule = rule := Option.some.inj ((orderly.get?_eq (mem e here)).symm.trans found)
  obtain ⟨p, mem_ps, line, rendered⟩ :=
    exists_of_renders rendered (e := e) (by rwa [List.zipIdx_map_fst])
  obtain ⟨body, is_body, -, means⟩ := rendered.body
  rw [← rendered.name, meaning_name nodup mem_ps, Production.language, is_body]
  refine means _ fun d n smaller refers => ?_
  exact ih (sizeOf d.rule) (size ▸ smaller) n d.rule rfl
    (orderly.get?_eq (mem_names_of_referent? refers))

/-! ### Labels -/

theorem isName_label {n : Bytes} (valid : isValidName n = true) : IsName (Complaint.label n) := by
  rw [isValidName, Bool.and_eq_true, List.all_eq_true] at valid
  refine ⟨114, 95 :: n, rfl, ?_, by decide⟩
  have shape : Complaint.label n = 114 :: 95 :: n := rfl
  rw [shape]
  exact List.forall_mem_cons.2 ⟨by decide, List.forall_mem_cons.2 ⟨by decide, valid.2⟩⟩

theorem Orderly.isName_label (orderly : r.Orderly) : ∀ n ∈ r.names, IsName (Complaint.label n) := by
  intro n mem
  obtain ⟨e, here, rfl⟩ := List.mem_map.1 mem
  exact Registry.isName_label (orderly.valid e here)

theorem label_injective : Function.Injective Complaint.label := fun _ _ => List.append_cancel_left

/-- The rendering of a registry, with a label before every name, is read as one production for each
    name, and each name stands for the language of its rule over leaves. -/
theorem rendering_means_rules (built : r.Built) :
    ∃ ps, Bnf.read (r.render Complaint.label r.names) = some ps ∧
      MeansRules r Complaint.label ps :=
  built.orderly.rendering_means built.orderly.isName_label label_injective

/-! ### A sample -/

namespace Sample

/-- A digit of base ten. -/
def digit : Rule := .regex 1 "[0-9]"

/-- A sign. -/
def sign : Rule := .combine 2 .oneOf [⟨[], .text 3 "+"⟩, ⟨[], .text 4 "-"⟩]

/-- Digits after a sign, or without one. -/
def integer : Rule :=
  .combine 5 .seq
    [⟨"sign", .combine 6 .optional [⟨[], sign⟩]⟩, ⟨"digit", .combine 7 (.oneOrMore false) [⟨[], digit⟩]⟩]

/-- Integers under two names. Digits have been redefined since. -/
def integers : Registry :=
  ((((Registry.empty.insert "digit" digit).insert "sign" sign).insert "integer" integer).insert
    "number" integer).insert "digit" (.regex 8 "[0-7]")

theorem built_integers : integers.Built := by
  have sign : sign.Built := Rule.built_combine_iff.2
    ⟨by decide, by simp [Rule.Built.text]⟩
  have integer : integer.Built := Rule.built_combine_iff.2
    ⟨by decide, List.forall_mem_cons.2 ⟨⟨Rule.built_combine_iff.2 ⟨by decide, by simpa using sign⟩,
      .inr (by decide)⟩, List.forall_mem_cons.2 ⟨⟨Rule.built_combine_iff.2 ⟨by decide,
      by simp [digit, Rule.Built.regex]⟩, .inr (by decide)⟩, nofun⟩⟩⟩
  exact ((((Built.empty.insert (by decide) (.regex ..)).insert (by decide) sign).insert (by decide)
    integer).insert (by decide) integer).insert (by decide) (.regex ..)

end Sample

theorem rendering_means_rules_sample : Sample.integers.Built ∧
    ∃ ps, Bnf.read (Sample.integers.render Complaint.label Sample.integers.names) = some ps ∧
      MeansRules Sample.integers Complaint.label ps :=
  ⟨Sample.built_integers, rendering_means_rules Sample.built_integers⟩

end Registry

end Rulebook

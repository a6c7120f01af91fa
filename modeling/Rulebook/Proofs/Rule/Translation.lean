import Mathlib.Data.List.Forall2
import Rulebook.Proofs.Pattern.Regrouping
import Rulebook.Proofs.Rule.Firm

/-!
# What the pattern of a rule denotes

A rule can be translated into an expression without a pattern: each combination is one group around
its entries, repeated as the combination says, and each named entry is one group of that name
(`Rule.translation`). The pattern of a rule is read back as that expression
(`Rule.namedPattern_reads_back`).

`Rule.expr` is the expression that the pattern is read to, whether or not every text of the rule is
UTF-8 by itself. Texts that stand side by side without names are one text there (`Rule.fuse`),
because they may share a character.
-/

namespace Rulebook

open Pattern
open Token (scan Clean)

/-! ### Translation -/

namespace Combinator

/-- What a combinator makes of the group around its entries. -/
def repeats (how : Combinator) (body : Expr) : Expr :=
  match how with
  | .seq => body
  | .oneOf => body
  | .optional => .opt true body
  | .zeroOrMore isLazy => .star (!isLazy) body
  | .oneOrMore isLazy => .plus (!isLazy) body

/-- What a combinator makes of its entries. -/
def joins (how : Combinator) (entries : List Expr) : Expr :=
  if how = .oneOf then .choice entries else .concat entries

end Combinator

theorem Pattern.Expr.Regroups.repeats {a b : Expr} (h : Expr.Regroups a b) (how : Combinator) :
    Expr.Regroups (how.repeats a) (how.repeats b) := by
  cases how with
  | seq => exact h
  | oneOf => exact h
  | optional => exact h.opt
  | zeroOrMore => exact h.star
  | oneOrMore => exact h.plus

theorem Pattern.Expr.Regroups.joins {xs ys : List Expr} (h : List.Forall₂ Expr.Regroups xs ys)
    (how : Combinator) : Expr.Regroups (how.joins xs) (how.joins ys) := by
  unfold Combinator.joins
  split
  · exact .choice h
  · exact .concat h

namespace Rule

/-- The characters of a text, each by itself. -/
def textExprs (literal : Bytes) : List Expr := literal.scalars.map fun c => .one (.single c.code)

/-- The text as it stands. -/
def textExpr (literal : Bytes) : Expr := .concat (textExprs literal)

/-- What a pattern denotes by itself, with the settings confined to it. -/
def leafExpr (source : Bytes) : Expr :=
  match Piece.parse source with
  | .error _ => .empty
  | .ok piece => piece.expr

/-- An entry, given its rule: one group of its name, or the rule as it stands if it has none. -/
def entryExpr (name : Bytes) (rule : Expr) : Expr :=
  if name.isEmpty then rule else .group 0 name rule

mutual

/-- The structure of a rule as an expression, with groups that are not numbered yet. -/
def translate : Rule → Expr
  | regex _ source => leafExpr source
  | text _ literal => textExpr literal
  | combine _ how entries => how.repeats (.group 0 [] (how.joins (translateEntries entries)))

/-- The entries of a combination as expressions. -/
def translateEntries : List (Entry Rule) → List Expr
  | [] => []
  | ⟨name, r⟩ :: rest => entryExpr name (translate r) :: translateEntries rest

end

/-- The structure of a rule as an expression. -/
def translation (r : Rule) : Expr := r.translate.numbered

/-! ### The expression of a rule -/

/-- What tokens are read to. -/
def readExpr (tokens : List Token) : Expr :=
  match Sketch.readWith {} tokens with
  | none => .empty
  | some (expr, _) => expr

/-- The tokens between the parentheses of a combination. -/
def inner (how : Combinator) (entries : List (Entry Rule)) : List Token :=
  if how = .oneOf then choiceTokens true entries else seqTokens true [] entries

/-- The expression of a rule's pattern, with groups that are not numbered. -/
def expr : Rule → Expr
  | regex _ source => readExpr (leafTokens source)
  | text _ literal => textExpr literal
  | combine _ how entries => how.repeats (.group 0 [] (readExpr (inner how entries)))

/-- True of a rule that has been read as a part of some pattern. -/
def IsRead : Rule → Prop
  | combine _ how entries => ∃ parts, Sketch.readWith {} (inner how entries) = some parts
  | _ => True

/-- True of an entry whose rule has been read, and by itself if the entry has a group of its own. -/
def EntryRead (e : Entry Rule) : Prop :=
  e.rule.IsRead ∧ (isGrouped e.name e.rule.kind = true →
    ∃ parts, Sketch.readWith {} (tokens true e.rule) = some parts)

/-- An entry's expression. -/
def exprOf (e : Entry Rule) : Expr := entryExpr e.name e.rule.expr

/-- Entries with the anonymous texts that stand side by side put together, after a text. -/
def fuse (pending : Bytes) : List (Entry Rule) → List (Entry Rule)
  | [] => [⟨[], text 0 pending⟩]
  | ⟨name, r⟩ :: rest =>
      match literal? name r with
      | some literal => fuse (pending ++ literal) rest
      | none => ⟨[], text 0 pending⟩ :: ⟨name, r⟩ :: fuse [] rest

/-- The entries of a combination as its pattern shows them. -/
def shown (how : Combinator) (entries : List (Entry Rule)) : List (Entry Rule) :=
  if how = .oneOf then entries else fuse [] entries

/-! ### Reading the parts of an alternative -/

/-- Tells that the parts `es` have been added to the alternative at hand. -/
structure Extends (s s' : Sketch) (es : List Expr) : Prop where
  flags : s'.flags = s.flags
  finished : s'.top.finished = s.top.finished
  exprs : s'.top.exprs = es.reverse ++ s.top.exprs

theorem Extends.trans {s t u : Sketch} {es ds : List Expr} (h : Extends s t es) (h' : Extends t u ds) :
    Extends s u (es ++ ds) where
  flags := h'.flags.trans h.flags
  finished := h'.finished.trans h.finished
  exprs := by rw [h'.exprs, h.exprs, List.reverse_append, List.append_assoc]

theorem extends_nil (s : Sketch) : Extends s s [] := ⟨rfl, rfl, rfl⟩

theorem extends_push {s s' : Sketch} {e : Expr} {shape : Shape} (h : s.push e shape = some s') :
    Extends s s' [e] := by
  rw [Sketch.eq_of_within h]
  exact ⟨rfl, rfl, rfl⟩

theorem extends_text {s s' : Sketch} {p : Bytes} (plain : s.flags = {})
    (h : s.run (textTokens p) = some s') : Extends s s' (textExprs p) := by
  unfold textTokens at h
  unfold textExprs
  generalize p.scalars = chars at h ⊢
  induction chars generalizing s with
  | nil =>
    cases h
    exact extends_nil _
  | cons c rest ih =>
    simp only [List.map_cons, Sketch.run, Sketch.step, plain] at h
    split at h
    · cases h
    · rename_i next pushed
      have here := extends_push pushed
      exact here.trans (ih (here.flags.trans plain) h)

/-- A repetition takes the place of the part before it. -/
theorem repeats_run {s s' : Sketch} {how : Combinator} {body : Expr} {before : List Expr}
    (plain : s.flags = {}) (last : s.top.exprs = body :: before)
    (h : s.run (repetition how) = some s') :
    s'.flags = s.flags ∧ s'.top.finished = s.top.finished ∧
      s'.top.exprs = how.repeats body :: before := by
  have once {count : Count} {marked : Bool} {text : Bytes}
      (h : s.run [.repeated count marked text] = some s') :
      s'.flags = s.flags ∧ s'.top.finished = s.top.finished ∧
        s'.top.exprs = Expr.repeated count (!marked) body :: before := by
    simp only [Sketch.run, Sketch.step] at h
    split at h
    · cases h
    · rename_i next step
      cases h
      unfold Sketch.repeatLast at step
      rw [last, plain] at step
      split at step
      · cases step
      · split at step
        · rename_i same _
          cases same
          dsimp only at step
          split at step
          · rw [Sketch.eq_of_within step]
            refine ⟨plain.symm, rfl, ?_⟩
            cases marked <;> rfl
          · cases step
        · cases step
  cases how with
  | seq =>
    cases h
    exact ⟨rfl, rfl, last⟩
  | oneOf =>
    cases h
    exact ⟨rfl, rfl, last⟩
  | optional => exact once h
  | zeroOrMore isLazy => exact once h
  | oneOrMore isLazy => exact once h

/-- What is read of a group, given what stands in it. -/
def enclosed (e : Expr) : Option Bytes → Expr
  | none => e
  | some name => .group 0 name e

theorem entryExpr_eq (name : Bytes) (e : Expr) :
    entryExpr name e = enclosed e (if name.isEmpty then none else some name) := by
  unfold entryExpr
  split <;> rfl

/-- A group is one part. -/
theorem extends_group {s s' : Sketch} {name : Option Bytes} {tokens : List Token}
    (balanced : Token.Balanced tokens) (plain : s.flags = {})
    (h : (s.enter name s.flags).run (tokens ++ [Token.close]) = some s') :
    (∃ parts, Sketch.readWith {} tokens = some parts) ∧
      Extends s s' [enclosed (readExpr tokens) name] := by
  rw [Sketch.run_enter balanced, plain] at h
  split at h
  · cases h
  · rename_i expr shape read
    refine ⟨⟨_, read⟩, ?_⟩
    rw [readExpr, read]
    have pushed : ∃ shape', Sketch.push (enclosed expr name) shape' { s with last := [] } = some s' := by
      cases name with
      | none => exact ⟨_, plain ▸ h⟩
      | some name => exact ⟨_, plain ▸ h⟩
    obtain ⟨_, pushed⟩ := pushed
    have added := extends_push pushed
    exact ⟨added.flags, added.finished, added.exprs⟩

/-! ### Reading entries -/

theorem tokens_combine (tag : Nat) (how : Combinator) (entries : List (Entry Rule)) :
    tokens true (combine tag how entries) =
      .capture [] :: ((inner how entries ++ [Token.close]) ++ repetition how) := by
  simp [tokens, inner]

theorem balanced_inner {entries : List (Entry Rule)} (even : ∀ e ∈ reach entries, Even e.rule)
    (how : Combinator) : Token.Balanced (inner how entries) := by
  unfold inner
  split
  · exact balanced_choiceTokens true entries even
  · exact balanced_seqTokens true entries even []

theorem extends_combine {s s' : Sketch} {tag : Nat} {how : Combinator} {entries : List (Entry Rule)}
    (even : ∀ e ∈ reach entries, Even e.rule) (plain : s.flags = {})
    (h : s.run (tokens true (combine tag how entries)) = some s') :
    IsRead (combine tag how entries) ∧ Extends s s' [expr (combine tag how entries)] := by
  have opened : s.step (.capture []) = some (s.enter (some []) s.flags) := rfl
  rw [tokens_combine, Sketch.run, opened] at h
  simp only at h
  rw [Sketch.run_append, Option.bind_eq_some_iff] at h
  obtain ⟨t, group, tail⟩ := h
  obtain ⟨read, added⟩ := extends_group (balanced_inner even how) plain group
  obtain ⟨flags, finished, exprs⟩ := repeats_run (added.flags.trans plain) added.exprs tail
  exact ⟨read, flags.trans added.flags, finished.trans added.finished, exprs⟩

/-- Tokens that add parts to one alternative are read to these parts one after another. -/
theorem expr_of_adds {tokens : List Token} {s : Sketch} {es : List Expr} {parts : Expr × Shape}
    (run : (Sketch.begin {}).run tokens = some s) (added : Extends (.begin {}) s es)
    (h : Sketch.readWith {} tokens = some parts) : parts.1 = .concat es := by
  rw [Sketch.readWith, run] at h
  simp only at h
  split at h
  · unfold Sketch.finish at h
    split at h
    · cases h
    · rename_i next ended
      have whole := Sketch.eq_of_within ended
      have result := Sketch.eq_of_within h
      have finished : s.top.finished = [] := added.finished
      have exprs : s.top.exprs = es.reverse := by simpa [Sketch.begin] using added.exprs
      rw [result, whole]
      simp [finished, exprs, Expr.choice]
  · cases h

/-- The tokens of a rule are read to its expression. -/
theorem expr_of_readWith {r : Rule} {parts : Expr × Shape}
    (even : ∀ e ∈ reach r.entries, Even e.rule)
    (h : Sketch.readWith {} (tokens true r) = some parts) : r.IsRead ∧ parts.1 = r.expr := by
  obtain ⟨s, run⟩ := run_of_readWith h
  cases r with
  | regex tag source =>
    refine ⟨trivial, ?_⟩
    rw [tokens] at h
    simp [expr, readExpr, h]
  | text tag literal => exact ⟨trivial, expr_of_adds run (extends_text rfl run) h⟩
  | combine tag how entries =>
    obtain ⟨read, added⟩ := extends_combine even rfl run
    exact ⟨read, expr_of_adds run added h⟩

/-- An entry that is no anonymous text is one part. -/
theorem extends_entry {s s' : Sketch} {e : Entry Rule} (even : ∀ d ∈ e :: reach e.rule.entries, Even d.rule)
    (alone : literal? e.name e.rule = none) (plain : s.flags = {})
    (h : s.run (embedTokens true e.name e.rule.kind (tokens true e.rule)) = some s') :
    EntryRead e ∧ Extends s s' [exprOf e] := by
  obtain ⟨name, r⟩ := e
  have below := fun d mem => even d (List.mem_cons_of_mem _ mem)
  by_cases grouped : isGrouped name r.kind = true
  · rw [embedTokens, if_pos grouped, Sketch.run] at h
    have balanced := balanced_tokens true r (even _ (List.mem_cons_self ..)) below
    have opened : s.step (openToken true name) =
        some (s.enter (if name.isEmpty then none else some name) s.flags) := by
      unfold openToken
      split <;> rfl
    rw [opened] at h
    simp only at h
    obtain ⟨⟨parts, read⟩, added⟩ := extends_group balanced plain h
    obtain ⟨inside, same⟩ := expr_of_readWith below read
    refine ⟨⟨inside, fun _ => ⟨parts, read⟩⟩, ?_⟩
    have expr : readExpr (tokens true r) = r.expr := by rw [← same, readExpr, read]
    rw [expr] at added
    rwa [exprOf, entryExpr_eq]
  · rw [embedTokens, if_neg grouped] at h
    obtain ⟨anonymous, kind⟩ : name.isEmpty = true ∧ r.kind ≠ .regex := by
      simpa [isGrouped] using grouped
    obtain grouped' | ⟨tag, how, entries, rfl⟩ := literal?_eq_none alone
    · exact absurd grouped' grouped
    · have below : ∀ e ∈ reach entries, Even e.rule := below
      obtain ⟨read, added⟩ := extends_combine below plain h
      exact ⟨⟨read, fun grouped' => absurd grouped' grouped⟩,
        by simpa [exprOf, entryExpr, anonymous] using added⟩

/-- Entries one after another. -/
theorem extends_seq {entries : List (Entry Rule)} (even : ∀ e ∈ reach entries, Even e.rule)
    {pending : Bytes} {s s' : Sketch} (plain : s.flags = {})
    (h : s.run (seqTokens true pending entries) = some s') :
    (∀ e ∈ entries, EntryRead e) ∧ ∃ es, Extends s s' es ∧
      Expr.Regroups (.concat es) (.concat ((fuse pending entries).map exprOf)) := by
  induction entries generalizing pending s with
  | nil =>
    refine ⟨List.forall_mem_nil _, textExprs pending, extends_text plain h, ?_⟩
    exact .refl _
  | cons e rest ih =>
    obtain ⟨name, r⟩ := e
    rw [reach_cons, ← List.cons_append] at even
    have here := fun d mem => even d (List.mem_append_left (reach rest) mem)
    have others := fun d mem => even d (List.mem_append_right _ mem)
    cases alone : literal? name r with
    | some literal =>
      simp only [seqTokens, alone] at h
      simp only [fuse, alone]
      obtain ⟨rfl, tag, rfl⟩ := eq_text_of_literal? alone
      obtain ⟨reads, es, added, same⟩ := ih others plain h
      refine ⟨?_, es, added, same⟩
      rintro e (_ | ⟨_, mem⟩)
      · exact ⟨trivial, fun grouped => by cases grouped⟩
      · exact reads e mem
    | none =>
      simp only [seqTokens, alone] at h
      simp only [fuse, alone]
      rw [Sketch.run_append, Option.bind_eq_some_iff] at h
      obtain ⟨t, before, h⟩ := h
      rw [Sketch.run_append, Option.bind_eq_some_iff] at h
      obtain ⟨u, entry, after⟩ := h
      have first := extends_text plain before
      obtain ⟨read, second⟩ := extends_entry (e := ⟨name, r⟩) here alone (first.flags.trans plain) entry
      have added := first.trans second
      obtain ⟨reads, es, third, same⟩ := ih others (added.flags.trans plain) after
      refine ⟨?_, _, added.trans third, ?_⟩
      · rintro e (_ | ⟨_, mem⟩)
        · exact read
        · exact reads e mem
      · refine (Expr.regroups_concat_append _ _).trans ?_
        refine ((Expr.regroups_concat_append _ _).cat same).trans ?_
        refine (Expr.Regroups.assoc _ _ _).trans ?_
        refine .trans ?_ (Expr.regroups_concat_cons _ _).symm
        exact (Expr.Regroups.refl _).cat (Expr.regroups_concat_cons _ _).symm

/-- An entry that stands in an alternative by itself. -/
theorem extends_alternative {s s' : Sketch} {e : Entry Rule}
    (even : ∀ d ∈ e :: reach e.rule.entries, Even d.rule) (plain : s.flags = {})
    (h : s.run (embedTokens true e.name e.rule.kind (tokens true e.rule)) = some s') :
    EntryRead e ∧ ∃ es, Extends s s' es ∧ .concat es = exprOf e := by
  cases alone : literal? e.name e.rule with
  | none =>
    obtain ⟨read, added⟩ := extends_entry even alone plain h
    exact ⟨read, _, added, rfl⟩
  | some literal =>
    obtain ⟨name, r⟩ := e
    obtain ⟨rfl, tag, rfl⟩ := eq_text_of_literal? alone
    exact ⟨⟨trivial, fun grouped => by cases grouped⟩, _, extends_text plain h, rfl⟩

/-- Entries with bars between them. The last alternative is still at hand. -/
theorem choice_run {e : Entry Rule} {rest : List (Entry Rule)}
    (even : ∀ d ∈ reach (e :: rest), Even d.rule) {s s' : Sketch} (plain : s.flags = {})
    (fresh : s.top.exprs = []) (h : s.run (choiceTokens true (e :: rest)) = some s') :
    (∀ d ∈ e :: rest, EntryRead d) ∧
      .concat s'.top.exprs.reverse :: s'.top.finished =
        ((e :: rest).map exprOf).reverse ++ s.top.finished := by
  induction rest generalizing e s with
  | nil =>
    rw [reach_cons, ← List.cons_append] at even
    rw [choiceTokens, Sketch.run_append, Option.bind_eq_some_iff] at h
    obtain ⟨t, entry, after⟩ := h
    cases after
    obtain ⟨read, es, added, same⟩ :=
      extends_alternative (fun d mem => even d (List.mem_append_left _ mem)) plain entry
    refine ⟨by simpa using read, ?_⟩
    simp [added.exprs, added.finished, fresh, same]
  | cons d rest ih =>
    rw [reach_cons, ← List.cons_append] at even
    rw [choiceTokens, Sketch.run_append, Option.bind_eq_some_iff] at h
    obtain ⟨t, entry, after⟩ := h
    obtain ⟨read, es, added, same⟩ :=
      extends_alternative (fun d mem => even d (List.mem_append_left _ mem)) plain entry
    simp only [List.isEmpty_cons, Bool.false_eq_true, if_false, Sketch.run] at after
    split at after
    · cases after
    · rename_i u bar
      have ended := Sketch.eq_of_within bar
      obtain ⟨reads, whole⟩ := ih (fun d mem => even d (List.mem_append_right _ mem))
        (by rw [ended]; exact added.flags.trans plain) (by rw [ended]) after
      refine ⟨List.forall_mem_cons.2 ⟨read, reads⟩, ?_⟩
      rw [whole, ended]
      simp [added.exprs, added.finished, fresh, same]

/-! ### Reading combinations -/

theorem readExpr_choice {entries : List (Entry Rule)} (even : ∀ e ∈ reach entries, Even e.rule)
    {parts : Expr × Shape} (h : Sketch.readWith {} (choiceTokens true entries) = some parts) :
    (∀ e ∈ entries, EntryRead e) ∧ parts.1 = .choice (entries.map exprOf) := by
  obtain ⟨s, run⟩ := run_of_readWith h
  cases entries with
  | nil =>
    cases run
    exact ⟨List.forall_mem_nil _, expr_of_adds rfl (extends_nil _) h⟩
  | cons e rest =>
    obtain ⟨reads, whole⟩ := choice_run even rfl rfl run
    refine ⟨reads, ?_⟩
    rw [Sketch.readWith, run] at h
    simp only at h
    split at h
    · unfold Sketch.finish at h
      split at h
      · cases h
      · rename_i next ended
        rw [Sketch.eq_of_within h, Sketch.eq_of_within ended]
        simp [whole, Sketch.begin]
    · cases h

/-- The entries of a combination that has been read have been read, and its expression is made of
    theirs. -/
theorem IsRead.combine_entries {tag : Nat} {how : Combinator} {entries : List (Entry Rule)}
    (even : ∀ e ∈ reach entries, Even e.rule) (read : IsRead (combine tag how entries)) :
    (∀ e ∈ entries, EntryRead e) ∧
      Expr.Regroups (expr (.combine tag how entries))
        (how.repeats (.group 0 [] (how.joins ((shown how entries).map exprOf)))) := by
  obtain ⟨parts, read⟩ := read
  have inside : (∀ e ∈ entries, EntryRead e) ∧
      Expr.Regroups parts.1 (how.joins ((shown how entries).map exprOf)) := by
    unfold inner at read
    unfold Combinator.joins shown
    split at read
    · simp only [if_true, *]
      obtain ⟨reads, same⟩ := readExpr_choice even read
      exact ⟨reads, same ▸ .refl _⟩
    · simp only [if_false, *]
      obtain ⟨s, run⟩ := run_of_readWith read
      obtain ⟨reads, es, added, same⟩ := extends_seq even rfl run
      rw [expr_of_adds run added read]
      exact ⟨reads, same⟩
  refine ⟨inside.1, ?_⟩
  have whole : readExpr (inner how entries) = parts.1 := by rw [readExpr, read]
  rw [expr, whole]
  exact inside.2.group.repeats how

theorem IsRead.combine {tag : Nat} {how : Combinator} {entries : List (Entry Rule)}
    (even : ∀ e ∈ reach entries, Even e.rule) (read : IsRead (combine tag how entries)) :
    (∀ e ∈ entries, e.rule.IsRead) ∧
      Expr.Regroups (expr (.combine tag how entries))
        (how.repeats (.group 0 [] (how.joins ((shown how entries).map exprOf)))) :=
  (read.combine_entries even).imp_left fun reads e mem => (reads e mem).1

/-! ### Texts that are UTF-8 -/

theorem regroups_textExpr_append {p : Bytes} (valid : p.isUtf8 = true) (q : Bytes) :
    Expr.Regroups (textExpr (p ++ q)) (.cat (textExpr p) (textExpr q)) := by
  unfold textExpr textExprs
  rw [Bytes.scalars_append_of_isUtf8 valid, List.map_append]
  exact Expr.regroups_concat_append _ _

/-- Texts that are UTF-8 share no character. -/
theorem regroups_fuse {entries : List (Entry Rule)}
    (valid : ∀ e ∈ entries, ∀ tag literal, e.rule = text tag literal → literal.isUtf8 = true)
    {pending : Bytes} (here : pending.isUtf8 = true) :
    Expr.Regroups (.concat ((fuse pending entries).map exprOf))
      (.cat (textExpr pending) (.concat (entries.map exprOf))) := by
  induction entries generalizing pending with
  | nil => exact (Expr.Regroups.cat_empty _).symm
  | cons e rest ih =>
    obtain ⟨name, r⟩ := e
    have later := fun d mem => valid d (List.mem_cons_of_mem _ mem)
    rw [fuse]
    split
    · rename_i literal found
      obtain ⟨rfl, tag, rfl⟩ := eq_text_of_literal? found
      have utf8 : literal.isUtf8 = true := valid _ (List.mem_cons_self ..) tag literal rfl
      refine (ih later (Bytes.isUtf8_append here utf8)).trans ?_
      refine ((regroups_textExpr_append here literal).cat (.refl _)).trans ?_
      exact (Expr.Regroups.assoc _ _ _).trans
        ((Expr.Regroups.refl _).cat (Expr.regroups_concat_cons _ _).symm)
    · simp only [List.map_cons]
      refine (Expr.regroups_concat_cons _ _).trans ((Expr.Regroups.refl _).cat ?_)
      refine (Expr.regroups_concat_cons _ _).trans
        (.trans ((Expr.Regroups.refl _).cat ?_) (Expr.regroups_concat_cons _ _).symm)
      exact (ih later rfl).trans (.empty_cat _)

theorem regroups_shown (how : Combinator) {entries : List (Entry Rule)}
    (valid : ∀ e ∈ entries, ∀ tag literal, e.rule = text tag literal → literal.isUtf8 = true) :
    Expr.Regroups (how.joins ((shown how entries).map exprOf)) (how.joins (entries.map exprOf)) := by
  unfold Combinator.joins shown
  split
  · exact .refl _
  · exact (regroups_fuse valid rfl).trans (.empty_cat _)

theorem translateEntries_eq (entries : List (Entry Rule)) :
    translateEntries entries = entries.map fun e => entryExpr e.name e.rule.translate := by
  induction entries with
  | nil => rfl
  | cons e rest ih =>
    obtain ⟨name, r⟩ := e
    rw [translateEntries, ih, List.map_cons]

theorem unnumbered_entryExpr (name : Bytes) (e : Expr) :
    (entryExpr name e).unnumbered = entryExpr name e.unnumbered := by
  unfold entryExpr
  split <;> rfl

theorem unnumbered_repeats (how : Combinator) (e : Expr) :
    (how.repeats e).unnumbered = how.repeats e.unnumbered := by
  cases how <;> rfl

theorem unnumbered_joins (how : Combinator) (es : List Expr) :
    (how.joins es).unnumbered = how.joins (es.map Expr.unnumbered) := by
  unfold Combinator.joins
  split
  · exact Expr.unnumbered_choice es
  · exact Expr.unnumbered_concat es

/-- A pattern is read to the expression of its tokens. -/
theorem read_of_parse {source : Bytes} {tokens : List Token} {piece : Piece}
    (scanned : scan source.scalars = tokens.map .ok) (parsed : Piece.parse source = .ok piece) :
    ∃ parts, Sketch.readWith {} tokens = some parts ∧ parts.1 = piece.expr.unnumbered := by
  have follows := Piece.parse_follows scanned
  rw [parsed] at follows
  obtain ⟨parts, read, drawn⟩ := follows.sound
  exact ⟨parts, read, drawn.1.symm⟩

/-- A pattern that is accepted is read inside a group as by itself. -/
theorem readExpr_leafTokens {tag : Nat} {source : Bytes} (h : Accepted (regex tag source)) :
    readExpr (leafTokens source) = (leafExpr source).unnumbered := by
  have leaf := leaf_of_accepted h
  obtain ⟨c, compiled⟩ := h
  obtain ⟨piece, parsed, -⟩ := Regex.of_ofPattern (compile_ok compiled).1
  obtain ⟨parts, read, same⟩ := read_of_parse leaf.scanned parsed
  rw [readExpr, leafExpr, read, show Piece.parse source = .ok piece from parsed]
  exact same

/-- A rule whose texts are UTF-8 is read to its structure. -/
theorem Sound.regroups_translate {r : Rule} (sound : Sound r) (read : r.IsRead)
    (valid : TextsUtf8 r) : Expr.Regroups r.expr r.translate.unnumbered := by
  induction r using of_entries with
  | step r ih =>
  cases r with
  | regex tag source =>
    rw [expr, translate, readExpr_leafTokens (sound.leaf tag source rfl)]
    exact .refl _
  | text tag literal =>
    rw [expr, translate, textExpr, Expr.unnumbered_concat, textExprs, List.map_map]
    exact .refl _
  | combine tag how entries =>
    obtain ⟨reads, same⟩ := read.combine sound.even
    have texts : ∀ e ∈ entries, ∀ tag literal, e.rule = text tag literal →
        literal.isUtf8 = true := fun e mem =>
      valid e (List.mem_cons_of_mem _ (mem_reach mem))
    have below : List.Forall₂ Expr.Regroups (entries.map exprOf)
        ((translateEntries entries).map Expr.unnumbered) := by
      rw [translateEntries_eq, List.map_map, List.forall₂_map_left_iff,
        List.forall₂_map_right_iff, List.forall₂_same]
      intro e mem
      have here := ih e mem (sound.entry (mem_reach mem)) (reads e mem) (valid.entry mem)
      rw [Function.comp_apply, unnumbered_entryExpr, exprOf]
      unfold entryExpr
      split
      · exact here
      · exact here.group
    rw [translate, unnumbered_repeats, Expr.unnumbered, unnumbered_joins]
    exact same.trans (((regroups_shown how texts).trans (.joins below how)).group.repeats how)

/-! ### Patterns of rules -/

/-- The pattern of a rule that can be read is read to the expression of the rule. -/
theorem Firm.expr_parse {r : Rule} (firm : Firm r) {piece : Piece}
    (parsed : Piece.parse r.namedPattern = .ok piece) :
    r.IsRead ∧ piece.expr = r.expr.numbered := by
  obtain ⟨parts, read, same⟩ := read_of_parse (firm.scan_namedPattern parsed) parsed
  obtain ⟨inside, expr⟩ := expr_of_readWith (firm.even_of_parse parsed) read
  refine ⟨inside, ?_⟩
  rw [← expr, same, Piece.numbered_parse parsed]

theorem Sound.regroups_parse {r : Rule} (sound : Sound r) (valid : TextsUtf8 r) {piece : Piece}
    (parsed : Piece.parse r.namedPattern = .ok piece) :
    Expr.Regroups piece.expr r.translation := by
  obtain ⟨read, same⟩ := sound.firm.expr_parse parsed
  have structured := (sound.regroups_translate read valid).numbered
  rw [Expr.numbered, Expr.numbered, Expr.unnumbered_numberFrom] at structured
  rw [same]
  exact structured

/-- The pattern of a rule is read back as the structure of the rule: its groups have the same names
    in the same order, and every text has the same matches, each with the same span for every
    group. -/
theorem namedPattern_reads_back {r : Rule} (sound : Sound r) (valid : TextsUtf8 r) {regex : Regex}
    (accepted : Regex.ofPattern r.namedPattern = .ok regex) :
    ∃ piece, Piece.parse r.namedPattern = .ok piece ∧
      piece.expr.names = r.translation.names ∧
      ∀ text : Bytes,
        (Program.ofExpr piece.expr).find? (.start text) =
            (Program.ofExpr r.translation).find? (.start text) ∧
          (Program.ofExpr piece.expr).findAll none (.start text) =
            (Program.ofExpr r.translation).findAll none (.start text) := by
  obtain ⟨piece, parsed, -⟩ := Regex.of_ofPattern accepted
  have same := sound.regroups_parse valid parsed
  refine ⟨piece, parsed, same.names_eq, fun text => ?_⟩
  rw [same.program_eq]
  exact ⟨rfl, rfl⟩

theorem namedPattern_reads_back_sample :
    Sound Sample.whole ∧ TextsUtf8 Sample.whole ∧
      ∃ regex, Regex.ofPattern Sample.whole.namedPattern = .ok regex ∧
        ∃ piece, Piece.parse Sample.whole.namedPattern = .ok piece ∧
          piece.expr.names = Sample.whole.translation.names ∧
          ∀ text : Bytes,
            (Program.ofExpr piece.expr).find? (.start text) =
                (Program.ofExpr Sample.whole.translation).find? (.start text) ∧
              (Program.ofExpr piece.expr).findAll none (.start text) =
                (Program.ofExpr Sample.whole.translation).findAll none (.start text) := by
  obtain ⟨c, compiled⟩ := Sample.accepted_whole
  have accepted := (compile_ok compiled).1
  exact ⟨Sample.sound_whole, Sample.plain_whole.texts, c.search, accepted,
    namedPattern_reads_back Sample.sound_whole Sample.plain_whole.texts accepted⟩

end Rule

end Rulebook

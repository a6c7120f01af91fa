import Rulebook.Proofs.Definition.LineTrees
import Rulebook.Proofs.Tree.Sequence

/-!
# The parts of definitions

What a compiler of definitions relies on in the trees of its grammar: the alternatives of a group are
shorter than the text that the group stands in, and a pattern has its quotes.
-/

namespace Rulebook

open Pattern Bytes

namespace Bootstrap

open Rule

section

variable {r : Rule} {t child : Tree} {name : Bytes}

/-- The rule of the only entry with a name. -/
theorem rule_eq_of_only {rule : Rule} (only : r.entries.filter (·.name == name) = [⟨name, rule⟩]) {e : Entry Rule}
    (mem : e ∈ r.entries) (title : e.name = name) : e.rule = rule := by
  have here : e ∈ r.entries.filter (·.name == name) := List.mem_filter.2 ⟨mem, by simpa using title⟩
  rw [only, List.mem_singleton] at here
  rw [here]

theorem grown_of_child? (rule : Rule) (h : Grown r t) (here : t.child? name = some child)
    (only : r.entries.filter (·.name == name) = [⟨name, rule⟩]) : Grown rule child := by
  obtain ⟨mem, same⟩ := Tree.mem_of_child? here
  obtain ⟨e, entry, -, title, grown⟩ := h.children child mem
  exact rule_eq_of_only only entry (title.symm.trans same) ▸ grown

theorem recognised_of_child? (rule : Rule) (h : t.Recognised r) (here : t.child? name = some child)
    (only : r.entries.filter (·.name == name) = [⟨name, rule⟩]) :
    rule.Matches child.text ∧ child.Recognised rule := by
  obtain ⟨mem, same⟩ := Tree.mem_of_child? here
  obtain ⟨e, entry, -, title, known⟩ :=
    Tree.recognisedAll_iff.1 (Tree.recognised_iff.1 h) child mem
  exact rule_eq_of_only only entry (title.symm.trans same) ▸ known

end

/-- The part of a node of a token. -/
theorem grown_of_mem_nodes {text : Bytes} {t child : Tree} {name : Bytes} (rule : Rule)
    (mem : t ∈ token.nodes text) (here : t.child? name = some child)
    (only : token.entries.filter (·.name == name) = [⟨name, rule⟩]) : Grown rule child := by
  obtain ⟨c, found, -, -, node⟩ := nodeOf_of_mem mem
  obtain ⟨mem, same⟩ := Tree.mem_of_child? here
  obtain ⟨e, entry, -, title, grown⟩ := node.grown child mem
  exact rule_eq_of_only only entry (title.symm.trans same) ▸ grown

/-- An expression that takes no empty text leads on. -/
theorem offset_lt_of_leads {e : Expr} (free : e.isFree = true) (some_char : ∀ w ∈ e.language, w ≠ [])
    {text : Bytes} {c d : Cursor} (onward : c ∈ (Cursor.start text).onward) (leads : e.Leads c d) :
    c.offset < d.offset := by
  obtain ⟨w, mem, rest, place⟩ := (Expr.leads_of_free free).1 leads
  obtain ⟨s, more, rfl⟩ := List.exists_cons_of_ne_nil (some_char w mem)
  obtain ⟨taken, whole, -⟩ := Cursor.mem_onward.1 onward
  have wide := wide_scalars text s (by
    rw [show text.scalars = taken ++ c.rest from whole, rest]
    simp)
  rw [place, Cursor.offset_advance, ofScalars_cons, List.length_append]
  rw [Scalar.width] at wide
  omega

theorem offset_lt_of_text {literal : Bytes} (some_char : literal.scalars ≠ []) {source : Bytes}
    {c d : Cursor} (onward : c ∈ (Cursor.start source).onward)
    (leads : (exprOf (item (text literal))).Leads c d) : c.offset < d.offset := by
  refine offset_lt_of_leads (isFree_textExpr literal) (fun w mem none => some_char ?_) onward
    ((leads_exprOf ..).1 leads)
  have codes := mem_text.1 mem
  rw [none, List.map_nil] at codes
  exact List.map_eq_nil_iff.1 codes.symm

theorem isFree_name : name.expr.isFree = true :=
  have avoids : Avoids 10 name := avoids_name (by decide)
  Expr.isFree_of_avoids (modest_name.sound.avoids_expr (modest_isRead modest_name (by decide))
    modest_name.plain.texts avoids)

theorem isFree_optSpace : optSpace.expr.isFree = true :=
  have avoids : Avoids 10 optSpace := avoids_optSpace (by decide)
  Expr.isFree_of_avoids (modest_optSpace.sound.avoids_expr
    (modest_isRead modest_optSpace (by decide)) modest_optSpace.plain.texts avoids)

/-- A group is longer than its alternatives, because it starts with a parenthesis. -/
theorem length_alternatives {g alternatives : Tree} (grown : Grown group g)
    (here : g.child? "alternatives" = some alternatives) :
    alternatives.text.length < g.text.length := by
  have some_part : g.children ≠ [] := List.ne_nil_of_mem (Tree.mem_of_child? here).1
  obtain ⟨span, offset, c, found, inner, name, whole, rfl⟩ :=
    grown.wholeNode modest_group.sound nofun some_part
  have searches := modest_group.sound.searches whole.compiled
  obtain ⟨c', d', part, first, middle, last, built, part_eq⟩ :=
    Sound.part_of_seq [item (text "("), item optSpace]
      ⟨"alternatives", leaf (alternativesOf innerToken)⟩
      [item optSpace, item (text ")")] modest_group.sound modest_group.plain.texts
      whole.compiled searches.whole_names whole.passage whole.node (by decide) (by decide)
  obtain ⟨e, paren, blanks⟩ :=
    (Expr.leads_concat_append [exprOf (item (text "("))] [exprOf (item optSpace)]).1 first
  have start : 0 < c'.offset :=
    Nat.lt_of_lt_of_le (offset_lt_of_text (by decide) (Cursor.mem_onward.2 ⟨[], rfl, rfl⟩) paren)
      (Cursor.offset_le_of_onward blanks.mem_onward)
  have finish : d'.offset ≤ span.length := by
    have after := Cursor.offset_le_of_onward last.mem_onward
    rw [show found.stop.offset = span.length from whole.finish] at after
    exact after
  rw [Tree.child?, Tree.children_rename] at here
  cases here.symm.trans part_eq
  have inside := within_descend built
  rw [length_slice c'.offset finish, Tree.finish] at inside
  rw [Tree.text_rename, Tree.text_rename, whole.text_eq]
  have low := Cursor.offset_le_of_onward middle.mem_onward
  omega

/-- A pattern that takes some text is searched for by its program. -/
theorem isStandard_of_mem {r : Rule} (sound : Sound r) (free : r.expr.isFree = true) {t : Bytes}
    (mem : t.scalars ∈ r.expr.language) : IsStandard r := by
  rintro tag source c - compiled text
  rw [Regex.find?, sound.lead_none_of_mem compiled free mem]

theorem length_of_mem_quotedPattern {w : List Scalar} (mem : w ∈ quotedPattern.expr.language) :
    2 ≤ w.length := by
  rw [show quotedPattern.expr = _ from (simple_of_getElem 6 rfl).expr_eq tag] at mem
  obtain ⟨_, ⟨s, rfl, -⟩, _, ⟨inside, -, _, ⟨s', rfl, -⟩, rfl⟩, rfl⟩ := mem
  simp

theorem mem_quotedPattern_quotes : ("''" : Bytes).scalars ∈ quotedPattern.expr.language := by
  rw [show quotedPattern.expr = _ from (simple_of_getElem 6 rfl).expr_eq tag]
  have quote : [Scalar.ascii 39] ∈ (Expr.one (.single 39)).language :=
    ⟨Scalar.ascii 39, rfl, by decide⟩
  refine ⟨[Scalar.ascii 39], quote, [Scalar.ascii 39], ⟨[], ?_, [Scalar.ascii 39], quote, rfl⟩, ?_⟩
  · exact mem_multiples.2 ⟨[], trivial, rfl, nofun⟩
  · decide

theorem length_scalars_le (s : Bytes) : s.scalars.length ≤ s.length := by
  have wide := wide_scalars s
  conv_rhs => rw [← ofScalars_scalars s]
  generalize s.scalars = l at wide
  induction l with
  | nil => exact Nat.le_refl _
  | cons x l ih =>
    obtain ⟨here, others⟩ := List.forall_mem_cons.1 wide
    have later := ih others
    rw [Scalar.width] at here
    rw [ofScalars_cons, List.length_append, List.length_cons]
    omega

theorem length_pattern {text : Bytes} {t a l p : Tree} (mem : t ∈ token.nodes text)
    (atom_ : t.child? "atom" = some a) (literal_ : a.child? "literal" = some l)
    (pattern_ : l.child? "pattern" = some p) : 2 ≤ p.text.length := by
  have free : ConditionFree token := avoids_token.conditionFree modest_token.sound
  have recognised := modest_token.sound.recognised_of_mem free mem
  obtain ⟨-, known⟩ := recognised_of_child? atom recognised atom_ rfl
  obtain ⟨-, known⟩ := recognised_of_child? literal known literal_ rfl
  obtain ⟨matched, -⟩ := recognised_of_child? quotedPattern known pattern_ rfl
  have simple := simple_of_getElem 6 rfl
  have sound : Sound quotedPattern := sound_regex (simple.accepted tag)
  have free : quotedPattern.expr.isFree = true := by
    rw [show quotedPattern.expr = _ from simple.expr_eq tag]
    decide
  have plain : ConditionFree quotedPattern :=
    Avoids.conditionFree sound (show Avoids 10 _ from avoids_of_getElem 6 rfl (by decide))
  rw [sound.matches_iff (simple.accepted tag)
    (isStandard_of_mem sound free mem_quotedPattern_quotes) plain] at matched
  exact Nat.le_trans (length_of_mem_quotedPattern matched) (length_scalars_le _)

/-! ### Lines -/

/-- The name and the value of a definition, and where they stand in its line. -/
structure DefinitionAt (l : Bytes) (offset : Nat) (definition name value : Tree) : Prop where
  text : definition.text = l
  name_part : definition.child? "name" = some name
  value_part : definition.child? "value" = some value
  name_at : ∃ k : Nat, name.offset = (offset + k : Nat) ∧ PartAt l k name.text ∧ name.text ≠ []
  value_at : ∃ k : Nat, value.offset = (offset + k : Nat) ∧ PartAt l k value.text ∧
    k + value.text.length < l.length

theorem exists_definitionAt {l : Bytes} {offset : Nat} {t : Tree}
    (taken : ruleEntry.recognises l = true) (built : ruleEntry.matcher.descend l offset = .ok t) :
    ∃ name value, DefinitionAt l offset t name value := by
  have sound := modest_ruleEntry.sound
  obtain ⟨c, found, whole⟩ := sound.wholeNode nofun (recognises_iff.1 taken) built
  have searches := sound.searches whole.compiled
  have finish {d : Cursor} {es : List Expr} (leads : (Expr.concat es).Leads d found.stop) :
      d.offset ≤ l.length := by
    have after := Cursor.offset_le_of_onward leads.mem_onward
    rwa [show found.stop.offset = l.length from whole.finish] at after
  obtain ⟨c₁, d₁, n, first, middle, last, built₁, name_eq⟩ :=
    Sound.part_of_seq [item lineStart, item optSpace] ⟨"name", name⟩
      [item optSpace, item (text "="), item optSpace, ⟨"value", value⟩, item optSpace,
        item (text ";"), item optSpace, item lineEnd] sound modest_ruleEntry.plain.texts
      whole.compiled searches.whole_names whole.passage whole.node (by decide) (by decide)
  obtain ⟨c₂, d₂, v, first', middle', last', built₂, value_eq⟩ :=
    Sound.part_of_seq [item lineStart, item optSpace, ⟨"name", name⟩, item optSpace,
        item (text "="), item optSpace] ⟨"value", value⟩
      [item optSpace, item (text ";"), item optSpace, item lineEnd] sound
      modest_ruleEntry.plain.texts whole.compiled searches.whole_names whole.passage whole.node
      (by decide) (by decide)
  obtain ⟨text₁, offset₁⟩ := modest_name.sound.text_of_descend nofun built₁
  obtain ⟨text₂, offset₂⟩ := modest_value.sound.text_of_descend nofun built₂
  have part₁ := (PartAt.whole l).slice (Cursor.offset_le_of_onward middle.mem_onward) (finish last)
  have part₂ := (PartAt.whole l).slice (Cursor.offset_le_of_onward middle'.mem_onward) (finish last')
  rw [Nat.zero_add] at part₁ part₂
  refine ⟨_, _, whole.text_eq, name_eq, value_eq, ⟨c₁.offset, ?_, ?_, ?_⟩, ⟨c₂.offset, ?_, ?_, ?_⟩⟩
  · rw [Tree.offset_rename, offset₁]
  · rwa [Tree.text_rename, text₁]
  · rw [Tree.text_rename, text₁]
    have lt := offset_lt_of_leads isFree_name (fun w mem none => by
      obtain ⟨s, more, rfl, -⟩ := mem_name mem
      cases none) first.mem_onward middle
    refine List.ne_nil_of_length_pos ?_
    rw [length_slice _ (finish last)]
    omega
  · rw [Tree.offset_rename, offset₂]
  · rwa [Tree.text_rename, text₂]
  · rw [Tree.text_rename, text₂, length_slice _ (finish last')]
    have le := Cursor.offset_le_of_onward middle'.mem_onward
    obtain ⟨e, blanks, more⟩ := (Expr.leads_concat_append [exprOf (item optSpace)]
      [exprOf (item (text ";")), exprOf (item optSpace), exprOf (item lineEnd)]).1 last'
    obtain ⟨f, stop, others⟩ := (Expr.leads_concat_append [exprOf (item (text ";"))]
      [exprOf (item optSpace), exprOf (item lineEnd)]).1 more
    have here := Cursor.onward_trans (Cursor.onward_trans first'.mem_onward middle'.mem_onward)
      blanks.mem_onward
    have lt := offset_lt_of_text (by decide) here stop
    have before := Cursor.offset_le_of_onward blanks.mem_onward
    have after := finish others
    omega

/-- What stands before a line break ends where the line break begins. -/
theorem takeWhile_break {w ending : List Scalar} (before : ∀ s ∈ w, s.code ≠ 10 ∧ s.code ≠ 13)
    (isBreak : IsBreak ending) :
    (w ++ ending).takeWhile (fun s => s.code != 10 && s.code != 13) = w := by
  rw [List.takeWhile_append_of_pos fun s mem => by simpa using before s mem]
  simp only [IsBreak, List.mem_cons, List.not_mem_nil, or_false, List.map_eq_nil_iff] at isBreak
  obtain both | single | rfl := isBreak
  · obtain ⟨cr, tail, rfl, code, -⟩ := List.map_eq_cons_iff.1 both
    simp [code]
  · obtain ⟨lf, rfl, code⟩ := List.map_eq_singleton_iff.1 single
    simp [code]
  · simp

/-- The content of a comment is what stands between its mark and its line break. -/
theorem content_of_comment {l : Bytes} {offset : Nat} {t : Tree} (taken : comment.recognises l = true)
    (built : comment.matcher.descend l offset = .ok t) {blanks content ending : List Scalar}
    {mark : Scalar} (eq : l.scalars = blanks ++ mark :: (content ++ ending))
    (before : ∀ s ∈ blanks, s.code = 9 ∨ s.code = 32) (marked : mark.code = 35)
    (inside : ∀ s ∈ content, s.code ≠ 10 ∧ s.code ≠ 13) (isBreak : IsBreak ending) :
    t.offset = offset ∧ ∃ c, t.child? "content" = some c ∧ c.text = ofScalars content := by
  have sound := modest_comment.sound
  obtain ⟨c, found, whole⟩ := sound.wholeNode nofun (recognises_iff.1 taken) built
  have searches := sound.searches whole.compiled
  obtain ⟨c', d', part, first, middle, last, built, part_eq⟩ :=
    Sound.part_of_seq [item lineStart, item optSpace, item (text "#")]
      ⟨"content", regex "[^\\r\\n]*"⟩ [item lineEnd] sound
      modest_comment.plain.texts whole.compiled searches.whole_names whole.passage whole.node
      (by decide) (by decide)
  have simple := simple_of_getElem 8 rfl
  have sound' : Sound (regex "[^\\r\\n]*") := sound_regex (simple.accepted tag)
  have free : (regex "[^\\r\\n]*").expr.isFree = true := by
    rw [show (regex _).expr = _ from simple.expr_eq tag]
    decide
  have standard := isStandard_of_mem (t := []) sound' free (mem_content.2 nofun)
  refine ⟨whole.offset_eq, _, part_eq, ?_⟩
  rw [Tree.text_rename, (sound'.text_of_descend standard built).1]
  obtain ⟨w, mem, spans⟩ := (Expr.leads_of_free free).1 middle
  obtain ⟨e, begins, more⟩ := (Expr.leads_concat_append [exprOf (item lineStart)]
    [exprOf (item optSpace), exprOf (item (text "#"))]).1 first
  obtain ⟨-, rfl⟩ := leads_lineStart.1 ((leads_exprOf ..).1 begins)
  obtain ⟨e, skipped, marks⟩ :=
    (Expr.leads_concat_append [exprOf (item optSpace)] [exprOf (item (text "#"))]).1 more
  obtain ⟨blanks₁, mem₁, rest₁, -⟩ :=
    (Expr.leads_of_free isFree_optSpace).1 ((leads_exprOf ..).1 skipped)
  obtain ⟨marks, mem₂, rest₂, -⟩ :=
    (Expr.leads_of_free (isFree_textExpr "#")).1 ((leads_exprOf ..).1 marks)
  have codes : marks.map Scalar.code = [35] := mem_text.1 mem₂
  obtain ⟨mark₁, rfl, code⟩ := List.map_eq_singleton_iff.1 codes
  obtain ⟨ending₁, isBreak₁, ⟨rest₃, -⟩, -⟩ := leads_lineEnd.1 ((leads_exprOf ..).1 last)
  have both : blanks ++ mark :: (content ++ ending) = blanks₁ ++ mark₁ :: (w ++ ending₁) := by
    rw [← eq, show l.scalars = _ from rest₁, rest₂, spans.1, rest₃, whole.stop]
    simp
  have before₁ := mem_optSpace.1 mem₁
  obtain ⟨-, -, same⟩ := append_cons_inj (p := fun s : Scalar => s.code ≠ 9 ∧ s.code ≠ 32) both
    (fun s here => by have := before s here; omega) (fun s here => by have := before₁ s here; omega)
    (by omega) (by omega)
  have same : w = content := by
    rw [← takeWhile_break (mem_content.1 mem) isBreak₁, ← same, takeWhile_break inside isBreak]
  have slice := congrArg ofScalars (scalars_slice first.mem_onward spans.1 spans.2)
  rwa [ofScalars_scalars, same] at slice

end Bootstrap

end Rulebook

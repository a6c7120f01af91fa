import Rulebook.Proofs.Rule.Leads
import Rulebook.Proofs.Tree.Recognition

/-!
# Where the parts of a sequence lie

The group of a named entry of a sequence took what lies between the entries before it and those
after it: `Rule.Sound.captured_seq`.
-/

namespace Rulebook

open Pattern

namespace Rule

/-- The span of a part of a concatenation lies between what the parts before it took and what those
    after it took. -/
theorem span_of_concat {before after : List Expr} {k : Nat} {name : Bytes} {body : Expr}
    (distinct : (Expr.concat (before ++ .group k name body :: after)).numbers.Nodup) {c d : Cursor}
    {m : Marks} (passage : (Expr.concat (before ++ .group k name body :: after)).passes c d m) :
    ∃ c' d', (Expr.concat before).Leads c c' ∧ body.Leads c' d' ∧
      (Expr.concat after).Leads d' d ∧ m.span? k = some (c'.offset, d'.offset) := by
  rw [(Expr.regroups_concat_append _ _).passes_eq] at passage
  obtain ⟨c', m₁, m₂, first, others, rfl⟩ := passage
  rw [Expr.passes_concat_cons] at others
  obtain ⟨d', m₃, m₄, own, last, rfl⟩ := others
  have slots : (Expr.concat (before ++ .group k name body :: after)).slots =
      (Expr.concat before).slots ++ ((Expr.group k name body).slots ++ (Expr.concat after).slots) := by
    simp [Expr.slots_concat]
  rw [Expr.numbers, slots, List.map_append, List.map_append, List.nodup_append,
    List.nodup_append] at distinct
  obtain ⟨-, ⟨single, -, apart⟩, -⟩ := distinct
  have other : k ∉ (Expr.concat after).numbers := fun mem =>
    apart k (List.mem_cons_self ..) k mem rfl
  refine ⟨c', d', ⟨_, first⟩, ?_, ⟨_, last⟩, ?_⟩
  · obtain ⟨inner, here, -⟩ := own
    exact ⟨inner, here⟩
  · refine Marks.span?_append_left ?_
    rw [Marks.span?_append_right (Expr.passes_only _ last) other]
    exact Expr.span?_group single own

theorem numbers_exprOf {part : Expr} {e : Entry Rule} (isNamed : e.name ≠ [])
    (h : Expr.Numbers part (exprOf e)) :
    ∃ k body, part = .group k e.name body ∧ Expr.Numbers body e.rule.expr := by
  obtain ⟨next, rfl⟩ := h
  rw [exprOf, entryExpr, if_neg (by simpa using isNamed)]
  exact ⟨next, _, rfl, _, rfl⟩

theorem leads_concat_of_numbers {parts es : List Expr} (h : List.Forall₂ Expr.Numbers parts es)
    {c d : Cursor} : (Expr.concat parts).Leads c d ↔ (Expr.concat es).Leads c d := by
  have cons (x : Expr) (xs : List Expr) (c d : Cursor) : (Expr.concat (x :: xs)).Leads c d ↔
      ∃ e, x.Leads c e ∧ (Expr.concat xs).Leads e d := Expr.leads_concat_append [x] xs
  induction h generalizing c with
  | nil => rfl
  | cons here _ ih => simp only [cons, here.leads_iff, ih]

/-- The group of a named entry of a sequence took what lies between the entries before it and those
    after it. -/
theorem Sound.captured_seq {tag : Nat} {before after : List (Entry Rule)} {e : Entry Rule}
    (sound : Sound (combine tag .seq (before ++ e :: after)))
    (valid : TextsUtf8 (combine tag .seq (before ++ e :: after))) {c : Compiled}
    (compiled : compile (combine tag .seq (before ++ e :: after)) = .ok c) {regex : Regex}
    (names : regex.names = (expr (combine tag .seq (before ++ e :: after))).names)
    {found : Program.Found} {place : Cursor}
    (passage : (expr (combine tag .seq (before ++ e :: after))).numbered.passes place found.stop
      found.marks)
    (isNamed : e.isNamed = true) :
    ∃ c' d', (Expr.concat (before.map exprOf)).Leads place c' ∧ e.rule.expr.Leads c' d' ∧
      (Expr.concat (after.map exprOf)).Leads d' found.stop ∧
      Matcher.spanOf? regex found e.name = some (c'.offset, d'.offset) := by
  have named : e.name ≠ [] := by simpa [Entry.isNamed] using isNamed
  have searches := sound.searches compiled
  have same := (sound.regroups_combine searches.read valid).numbered
  obtain ⟨parts, eq, numbered⟩ :=
    Expr.numberFrom_concat ((before ++ e :: after).map exprOf) 2
  have whole : (Combinator.seq.repeats
      (.group 0 [] (Combinator.seq.joins ((before ++ e :: after).map exprOf)))).numbered =
      .group 1 [] (Expr.concat parts) := congrArg (Expr.group 1 []) eq
  rw [whole] at same
  rw [List.map_append, List.map_cons] at numbered
  have numbers := List.forall₂_take_append _ _ _ numbered
  have numbers' := List.forall₂_drop_append _ _ _ numbered
  rw [← List.take_append_drop (before.map exprOf).length parts] at same
  generalize parts.take _ = first at numbers same
  generalize parts.drop _ = others at numbers' same
  obtain ⟨own, last, here, later, rfl⟩ := List.forall₂_cons_right_iff.1 numbers'
  obtain ⟨k, body, rfl, inside⟩ := numbers_exprOf named here
  have distinct : (Expr.group 1 [] (Expr.concat (first ++ .group k e.name body :: last))).numbers.Nodup := by
    have range := numbers_numbered (expr (combine tag .seq (before ++ e :: after)))
    rw [Expr.numbers, same.slots_eq] at range
    rw [Expr.numbers, range]
    exact List.nodup_range'
  have slot : (k, e.name) ∈ (expr (combine tag .seq (before ++ e :: after))).numbered.slots := by
    rw [same.slots_eq]
    simp [Expr.slots, Expr.slots_concat]
  rw [same.passes_eq] at passage
  obtain ⟨inner, passage, marks⟩ := passage
  obtain ⟨outside, distinct⟩ := List.nodup_cons.1 distinct
  obtain ⟨c', d', left, middle, right, span⟩ := span_of_concat distinct passage
  refine ⟨c', d', (leads_concat_of_numbers numbers).1 left, inside.leads_iff.1 middle,
    (leads_concat_of_numbers later).1 right, ?_⟩
  have apart : k ≠ 1 := by
    rintro rfl
    exact outside (List.mem_map.2 ⟨(1, e.name), by simp [Expr.slots, Expr.slots_concat], rfl⟩)
  rw [spanOf?_of_mem names searches.unique slot named, marks, Marks.span?_group_of_ne apart, span]

/-! ### Nodes of whole texts -/

/-- The node of a rule for a text that the rule matches as a whole. -/
structure WholeNode (r : Rule) (text : Bytes) (offset : Nat) (c : Compiled) (found : Program.Found)
    (t : Tree) : Prop where
  compiled : r.compile = .ok c
  node : NodeOf r c.whole found text offset t
  passage : r.expr.numbered.passes (.start text) found.stop found.marks
  stop : found.stop.rest = []
  start : found.start = 0
  finish : found.finish = text.length

variable {r : Rule} {text : Bytes} {offset : Nat} {t : Tree}

/-- A text that a rule matches has a node of the rule that takes all of it. -/
theorem Sound.wholeNode (sound : Sound r) (standard : r.IsStandard) (matches_ : r.Matches text)
    (built : r.matcher.descend text offset = .ok t) : ∃ c found, WholeNode r text offset c found t := by
  obtain ⟨c, compiled, ⟨missed, -⟩ | ⟨found, matched, node⟩⟩ := descend_ok built
  · rw [matches_iff_occursIn compiled, Regex.occursIn, missed] at matches_
    cases matches_
  · rw [sound.standard standard compiled, (sound.searches compiled).whole] at matched
    obtain ⟨place, mem, here⟩ := Program.matchAt_of_find? matched
    obtain ⟨first, last, passage⟩ := passes_anchored.1 (Expr.reaches_iff.1 here.path)
    obtain rfl := eq_start_of_before mem first
    have onward := (Expr.reaches_iff.2 passage).mem_onward
    have finish := Cursor.offset_add_length onward
    rw [last, Bytes.ofScalars_nil, List.length_nil, Nat.add_zero] at finish
    exact ⟨c, found, compiled, node, passage, last, here.start, finish⟩

theorem WholeNode.text_eq {c : Compiled} {found : Program.Found} (h : WholeNode r text offset c found t) :
    t.text = text := by
  rw [h.node.text_eq, h.start, h.finish, Bytes.slice, List.drop_zero, Nat.sub_zero, List.take_length]

theorem WholeNode.offset_eq {c : Compiled} {found : Program.Found}
    (h : WholeNode r text offset c found t) : t.offset = offset := by
  rw [h.node.offset_eq, h.start, Nat.add_zero]

/-- The tree for a span has the text of the span. -/
theorem Sound.text_of_descend (sound : Sound r) (standard : r.IsStandard)
    (built : r.matcher.descend text offset = .ok t) : t.text = text ∧ t.offset = offset := by
  obtain ⟨c, compiled, ⟨missed, rfl⟩ | ⟨found, matched, -⟩⟩ := descend_ok built
  · exact ⟨rfl, rfl⟩
  · have known : r.Matches text := by
      rw [matches_iff_occursIn compiled, Regex.occursIn, matched]
      rfl
    obtain ⟨c, found, whole⟩ := sound.wholeNode standard known built
    exact ⟨whole.text_eq, whole.offset_eq⟩

/-! ### Parts of nodes -/

theorem child?_of_mem {child : Tree} (distinct : (t.children.map Tree.name).Nodup)
    (mem : child ∈ t.children) : t.child? child.name = some child := by
  rw [Tree.child?]
  generalize t.children = children at distinct mem
  induction children with
  | nil => cases mem
  | cons first rest ih =>
    obtain ⟨other, distinct⟩ := List.nodup_cons.1 distinct
    obtain rfl | mem := List.mem_cons.1 mem
    · simp
    · have differs : first.name ≠ child.name := fun same =>
        other (same ▸ List.mem_map_of_mem mem)
      rw [List.find?_cons_of_neg (by simpa using differs), ih distinct mem]

/-- Each part of a sequence is the node for what lies between the entries before it and those after
    it. -/
theorem Sound.part_of_seq {tag : Nat} (before : List (Entry Rule)) (e : Entry Rule)
    (after : List (Entry Rule))
    (sound : Sound (combine tag .seq (before ++ e :: after)))
    (valid : TextsUtf8 (combine tag .seq (before ++ e :: after))) {c : Compiled}
    (compiled : compile (combine tag .seq (before ++ e :: after)) = .ok c) {regex : Regex}
    (names : regex.names = (expr (combine tag .seq (before ++ e :: after))).names)
    {found : Program.Found} {place : Cursor}
    (passage : (expr (combine tag .seq (before ++ e :: after))).numbered.passes place found.stop
      found.marks)
    (node : NodeOf (combine tag .seq (before ++ e :: after)) regex found text offset t)
    (distinct : (((before ++ e :: after).filter Entry.isNamed).map Entry.name).Nodup)
    (isNamed : e.isNamed = true) :
    ∃ c' d' inner, (Expr.concat (before.map exprOf)).Leads place c' ∧ e.rule.expr.Leads c' d' ∧
      (Expr.concat (after.map exprOf)).Leads d' found.stop ∧
      e.rule.matcher.descend (text.slice c'.offset d'.offset) (offset + c'.offset) = .ok inner ∧
      t.child? e.name = some (inner.rename e.name) := by
  obtain ⟨c', d', left, middle, right, span⟩ :=
    sound.captured_seq valid compiled names passage isNamed
  have mem : (e, c'.offset, d'.offset) ∈ taken regex found (before ++ e :: after) :=
    List.mem_filterMap.2 ⟨e, by simp, by rw [if_pos isNamed, span]; rfl⟩
  obtain ⟨child, mem, inner, built, rfl⟩ := exists_right_of_forall₂ node.children mem
  have sub : (t.children.map Tree.name).Nodup := by
    rw [map_name_children node.children]
    refine distinct.sublist ?_
    have names := (taken_sublist regex found (before ++ e :: after)).map Entry.name
    rwa [List.map_map] at names
  refine ⟨c', d', inner, left, middle, right, built, ?_⟩
  have here := child?_of_mem sub mem
  rwa [Tree.name_rename] at here

/-- True of a tree that was built for a span that the group of an entry with a rule took. -/
def Grown (r : Rule) (t : Tree) : Prop :=
  ∃ span offset inner name, r.matcher.descend span offset = .ok inner ∧ t = inner.rename name

/-- The parts of a node are grown from the rules of the entries. -/
theorem NodeOf.grown {regex : Regex} {found : Program.Found} (h : NodeOf r regex found text offset t) :
    ∀ child ∈ t.children, ∃ e ∈ r.entries, e.isNamed = true ∧ child.name = e.name ∧
      Grown e.rule child := by
  intro child mem
  obtain ⟨⟨e, start, stop⟩, mem, built⟩ := exists_of_forall₂ h.children mem
  obtain ⟨entry, isNamed, -⟩ := mem_taken mem
  have name := built.name_eq
  obtain ⟨inner, descended, rfl⟩ := built
  exact ⟨e, entry, isNamed, name, _, _, inner, e.name, descended, rfl⟩

theorem Grown.children (h : Grown r t) :
    ∀ child ∈ t.children, ∃ e ∈ r.entries, e.isNamed = true ∧ child.name = e.name ∧
      Grown e.rule child := by
  obtain ⟨span, offset, inner, name, built, rfl⟩ := h
  rw [Tree.children_rename]
  obtain ⟨c, -, ⟨-, rfl⟩ | ⟨found, -, node⟩⟩ := descend_ok built
  · nofun
  · exact node.grown

/-- A grown tree with parts is the node of a text that the rule matches as a whole. -/
theorem Grown.wholeNode (h : Grown r t) (sound : Sound r) (standard : r.IsStandard)
    (parts : t.children ≠ []) :
    ∃ span offset c found inner name, WholeNode r span offset c found inner ∧
      t = inner.rename name := by
  obtain ⟨span, offset, inner, name, built, rfl⟩ := h
  rw [Tree.children_rename] at parts
  have matched : r.Matches span := by
    obtain ⟨c, compiled, ⟨-, rfl⟩ | ⟨found, matched, -⟩⟩ := descend_ok built
    · exact absurd rfl parts
    · rw [matches_iff_occursIn compiled, Regex.occursIn, matched]
      rfl
  obtain ⟨c, found, whole⟩ := sound.wholeNode standard matched built
  exact ⟨span, offset, c, found, inner, name, whole, rfl⟩

end Rule

namespace Tree

theorem mem_of_child? {t child : Tree} {name : Bytes} (h : t.child? name = some child) :
    child ∈ t.children ∧ child.name = name :=
  ⟨List.mem_of_find?_eq_some h, by simpa using List.find?_some h⟩

end Tree

end Rulebook

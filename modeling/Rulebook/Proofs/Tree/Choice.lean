import Rulebook.Proofs.Tree.Sequence

/-!
# Where the parts of a choice lie

The group of a named entry of a choice that took part took the whole match:
`Rule.Sound.captured_oneOf`. So the only part of a node for a whole text stands for the whole text.
-/

namespace Rulebook

open Pattern

namespace Rule

/-- The span of a part of a choice is what the choice took. -/
theorem span_of_choice {es : List Expr} {k : Nat} {name : Bytes} {body : Expr}
    (mem : .group k name body ∈ es) (distinct : (Expr.choice es).numbers.Nodup) {c d : Cursor}
    {m : Marks} (passage : (Expr.choice es).passes c d m) {span : Nat × Nat}
    (noted : m.span? k = some span) : body.Leads c d ∧ span = (c.offset, d.offset) := by
  have here (own : (Expr.group k name body).numbers.Nodup)
      (taken : (Expr.group k name body).passes c d m) :
      body.Leads c d ∧ span = (c.offset, d.offset) := by
    have span' := Expr.span?_group own taken
    obtain ⟨inner, passes, -⟩ := taken
    exact ⟨⟨inner, passes⟩, Option.some.inj (noted.symm.trans span')⟩
  have mine : k ∈ (Expr.group k name body).numbers := List.mem_cons_self ..
  fun_induction Expr.choice es with
  | case1 => cases mem
  | case2 e =>
    cases List.mem_singleton.1 mem
    exact here distinct passage
  | case3 e rest several ih =>
    rw [Expr.numbers, Expr.slots, List.map_append, List.nodup_append] at distinct
    obtain ⟨own, others, apart⟩ := distinct
    obtain rfl | mem := List.mem_cons.1 mem
    · obtain taken | taken := passage
      · exact here own taken
      · exact absurd rfl (apart k mine k ((Expr.passes_only _ taken).mem_of_span? noted))
    · obtain taken | taken := passage
      · have inside : k ∈ (Expr.choice rest).numbers := by
          rw [Expr.numbers, Expr.slots_choice]
          exact List.mem_map.2
            ⟨(k, name), List.mem_flatMap.2 ⟨_, mem, List.mem_cons_self ..⟩, rfl⟩
        exact absurd rfl (apart k ((Expr.passes_only _ taken).mem_of_span? noted) k inside)
      · exact ih mem others taken

/-- The group of a named entry of a choice took the whole match, if it took part. -/
theorem Sound.captured_oneOf {tag : Nat} {entries : List (Entry Rule)} {e : Entry Rule}
    (mem : e ∈ entries) (sound : Sound (combine tag .oneOf entries))
    (valid : TextsUtf8 (combine tag .oneOf entries)) {c : Compiled}
    (compiled : compile (combine tag .oneOf entries) = .ok c) {regex : Regex}
    (names : regex.names = (expr (combine tag .oneOf entries)).names) {found : Program.Found}
    {place : Cursor}
    (passage : (expr (combine tag .oneOf entries)).numbered.passes place found.stop found.marks)
    (isNamed : e.isNamed = true) {span : Nat × Nat}
    (took : Matcher.spanOf? regex found e.name = some span) :
    e.rule.expr.Leads place found.stop ∧ span = (place.offset, found.stop.offset) := by
  have named : e.name ≠ [] := by simpa [Entry.isNamed] using isNamed
  have searches := sound.searches compiled
  have same := (sound.regroups_combine searches.read valid).numbered
  obtain ⟨parts, eq, numbered⟩ := Expr.numberFrom_choice (entries.map exprOf) 2
  have whole : (Combinator.oneOf.repeats
      (.group 0 [] (Combinator.oneOf.joins (entries.map exprOf)))).numbered =
      .group 1 [] (Expr.choice parts) := congrArg (Expr.group 1 []) eq
  rw [whole] at same
  obtain ⟨part, here, numbers⟩ := exists_of_forall₂ numbered (List.mem_map_of_mem mem)
  obtain ⟨k, body, rfl, inside⟩ := numbers_exprOf named numbers
  have distinct : (Expr.group 1 [] (Expr.choice parts)).numbers.Nodup := by
    have range := numbers_numbered (expr (combine tag .oneOf entries))
    rw [Expr.numbers, same.slots_eq] at range
    rw [Expr.numbers, range]
    exact List.nodup_range'
  have slot : (k, e.name) ∈ (Expr.choice parts).slots := by
    rw [Expr.slots_choice]
    exact List.mem_flatMap.2 ⟨_, here, List.mem_cons_self ..⟩
  have slot' : (k, e.name) ∈ (expr (combine tag .oneOf entries)).numbered.slots := by
    rw [same.slots_eq]
    exact List.mem_cons_of_mem _ slot
  rw [same.passes_eq] at passage
  obtain ⟨inner, passage, marks⟩ := passage
  obtain ⟨outside, distinct⟩ := List.nodup_cons.1 distinct
  have apart : k ≠ 1 := by
    rintro rfl
    exact outside (List.mem_map.2 ⟨(1, e.name), slot, rfl⟩)
  rw [spanOf?_of_mem names searches.unique slot' named, marks, Marks.span?_group_of_ne apart] at took
  obtain ⟨leads, eq⟩ := span_of_choice here distinct passage took
  exact ⟨inside.leads_iff.1 leads, eq⟩

/-- A part of the node of a choice for a whole text is the node of the entry for that text. -/
theorem Sound.part_of_oneOf {tag : Nat} {entries : List (Entry Rule)}
    (sound : Sound (combine tag .oneOf entries)) (valid : TextsUtf8 (combine tag .oneOf entries))
    {text : Bytes} {offset : Nat} {c : Compiled} {found : Program.Found} {t child : Tree}
    (whole : WholeNode (combine tag .oneOf entries) text offset c found t)
    (mem : child ∈ t.children) :
    ∃ e ∈ entries, e.isNamed = true ∧ e.rule.expr.Leads (.start text) found.stop ∧
      ∃ inner, e.rule.matcher.descend text offset = .ok inner ∧ child = inner.rename e.name := by
  obtain ⟨⟨e, start, stop⟩, part, inner, built, rfl⟩ := exists_of_forall₂ whole.node.children mem
  obtain ⟨entry, isNamed, took⟩ := mem_taken part
  obtain ⟨leads, eq⟩ := sound.captured_oneOf entry valid whole.compiled
    (sound.searches whole.compiled).whole_names whole.passage isNamed took
  obtain ⟨rfl, rfl⟩ := Prod.mk.inj eq
  have finish : found.stop.offset = text.length := whole.finish
  refine ⟨e, entry, isNamed, leads, inner, ?_, rfl⟩
  simpa [finish, Cursor.start, Bytes.slice] using built

end Rule

end Rulebook

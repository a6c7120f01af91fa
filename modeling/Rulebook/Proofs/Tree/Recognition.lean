import Rulebook.Proofs.Pattern.Groups
import Rulebook.Proofs.Pattern.Quiet
import Rulebook.Proofs.Tree.Arrangement

/-!
# Matching again what was captured

What a group took is matched again by the rule of its entry, as a whole. If no pattern of a rule
holds a condition on what is around it, this never fails: `Rule.Sound.recognised`.
-/

namespace Rulebook

open Pattern

namespace Rule

/-! ### What stands in the group of an entry -/

/-- What stands in a group is determined by the name of the group, if no name stands twice. -/
theorem eq_of_mem_groups {e : Expr} (unique : repeated? [] e.names = none) {name : Bytes}
    (isNamed : name ≠ []) {k k' : Nat} {body body' : Expr} (mem : (k, name, body) ∈ e.groups)
    (mem' : (k', name, body') ∈ e.groups) : body = body' := by
  have distinct := (repeated?_eq_none.1 unique).1
  rw [← Expr.names_groups, List.filter_map] at distinct
  have kept {k : Nat} {body : Expr} (mem : (k, name, body) ∈ e.groups) :
      (k, name, body) ∈ e.groups.filter ((!·.isEmpty) ∘ (·.2.1)) :=
    List.mem_filter.2 ⟨mem, by simpa using isNamed⟩
  have same := List.inj_on_of_nodup_map distinct (kept mem) (kept mem') rfl
  exact congrArg (·.2.2) same

theorem mem_fuse_of_named (pending : Bytes) {entries : List (Entry Rule)} {e : Entry Rule}
    (mem : e ∈ entries) (isNamed : e.isNamed = true) : e ∈ fuse pending entries := by
  induction entries generalizing pending with
  | nil => cases mem
  | cons d rest ih =>
    obtain ⟨name, r⟩ := d
    rw [fuse]
    cases here : literal? name r with
    | some literal =>
      obtain rfl | mem := List.mem_cons.1 mem
      · obtain ⟨rfl, -⟩ := eq_text_of_literal? here
        cases isNamed
      · exact ih _ mem
    | none =>
      refine List.mem_cons_of_mem _ ?_
      obtain rfl | mem := List.mem_cons.1 mem
      · exact List.mem_cons_self ..
      · exact List.mem_cons_of_mem _ (ih _ mem)

theorem mem_shown_of_named (how : Combinator) {entries : List (Entry Rule)} {e : Entry Rule}
    (mem : e ∈ entries) (isNamed : e.isNamed = true) : e ∈ shown how entries := by
  unfold shown
  split
  · exact mem
  · exact mem_fuse_of_named [] mem isNamed

/-- The group of a named entry is among the groups of a combination. -/
theorem mem_groups_joins (how : Combinator) {entries : List (Entry Rule)} {e : Entry Rule}
    (mem : e ∈ entries) (isNamed : e.isNamed = true) :
    (0, e.name, e.rule.expr) ∈
      (how.repeats (.group 0 [] (how.joins ((shown how entries).map exprOf)))).groups := by
  have title : exprOf e = .group 0 e.name e.rule.expr := by
    rw [exprOf, entryExpr, if_neg (by simpa [Entry.isNamed] using isNamed)]
  have inside : (0, e.name, e.rule.expr) ∈ (how.joins ((shown how entries).map exprOf)).groups := by
    have mem : (0, e.name, e.rule.expr) ∈ ((shown how entries).map exprOf).flatMap Expr.groups := by
      refine List.mem_flatMap.2 ⟨exprOf e, List.mem_map_of_mem (mem_shown_of_named how mem isNamed), ?_⟩
      rw [title]
      exact List.mem_cons_self ..
    unfold Combinator.joins
    split
    · rwa [Expr.groups_choice]
    · rwa [Expr.groups_concat]
  cases how <;> exact List.mem_cons_of_mem _ inside

/-- What the group of a named entry took is what the expression of the entry's rule took. -/
theorem Sound.captured {r : Rule} (sound : Sound r) {c : Compiled} (compiled : r.compile = .ok c)
    {regex : Regex} (names : regex.names = r.expr.names) {found : Program.Found} {place : Cursor}
    (passage : r.expr.numbered.passes place found.stop found.marks) {e : Entry Rule}
    (mem : e ∈ r.entries) (isNamed : e.isNamed = true) {start stop : Nat}
    (span : Matcher.spanOf? regex found e.name = some (start, stop)) :
    ∃ body c' d' inner, Expr.Numbers body e.rule.expr ∧ c' ∈ place.onward ∧
      body.passes c' d' inner ∧ start = c'.offset ∧ stop = d'.offset := by
  cases r with
  | regex tag source => cases mem
  | text tag literal => cases mem
  | combine tag how entries =>
  have mem : e ∈ entries := mem
  have searches := sound.searches compiled
  have even : ∀ e ∈ reach entries, Even e.rule := sound.even
  have same := (searches.read.combine even).2
  have group := mem_groups_joins how mem isNamed
  generalize how.repeats (.group 0 [] (how.joins ((shown how entries).map exprOf))) = whole
    at same group
  have named : e.name ≠ [] := by simpa [Entry.isNamed] using isNamed
  have numbered := same.numbered
  rw [numbered.passes_eq] at passage
  have unique : repeated? [] whole.names = none := same.names_eq ▸ searches.unique
  have distinct : whole.numbered.numbers.Nodup := by
    rw [numbers_numbered]
    exact List.nodup_range'
  obtain ⟨⟨k, name⟩, slot, eq⟩ : ∃ slot ∈ whole.numbered.slots, slot.2 = e.name := by
    rw [← List.mem_map, Expr.map_snd_slots, Expr.names_numbered, ← Expr.names_groups]
    exact List.mem_map_of_mem group
  obtain rfl : name = e.name := eq
  rw [spanOf?_of_mem names searches.unique (numbered.slots_eq ▸ slot) named] at span
  obtain ⟨-, traced⟩ := Expr.traced _ distinct _ _ _ passage
  obtain ⟨first, last⟩ | ⟨name, body, c', d', inner, group', onward, here, span'⟩ := traced k
  · rw [Marks.span?, first] at span
    cases span
  · cases span.symm.trans span'
    -- A number belongs to one group only, so that the group is that of the entry.
    have title : name = e.name := by
      have slot' : (k, name) ∈ whole.numbered.slots := by
        rw [← Expr.slots_groups]
        exact List.mem_map_of_mem group'
      exact congrArg Prod.snd (List.inj_on_of_nodup_map distinct slot' slot rfl)
    subst title
    obtain ⟨k', body', mem', numbers⟩ := Expr.groups_numberFrom whole 1 group'
    cases eq_of_mem_groups unique named mem' group
    exact ⟨body, c', d', inner, numbers, onward, here, rfl, rfl⟩

/-! ### Matching again -/

/-- The pattern for whole texts of a rule that matches anything is found by its program. -/
theorem Sound.lead_none_of_mem {r : Rule} (sound : Sound r) {c : Compiled}
    (compiled : r.compile = .ok c) (free : r.expr.isFree = true) {t : Bytes}
    (mem : t.scalars ∈ r.expr.language) : c.whole.lead = none := by
  have numbered : r.expr.numbered.isFree = true := by
    rwa [Expr.numbered, Expr.isFree_numberFrom]
  have mem : t.scalars ∈ r.expr.numbered.language := by
    rwa [Expr.numbered, Expr.language_numberFrom]
  obtain ⟨piece, parsed, -⟩ := Regex.of_ofPattern (compile_ok compiled).1
  obtain ⟨piece', parsed', -, -, lead, -⟩ := Regex.of_ofPattern (compile_ok compiled).2
  rw [lead]
  refine Piece.lead_none parsed' ?_
  rw [sound.firm.anchored_parse parsed parsed']
  obtain ⟨m, here⟩ := (Expr.reads_passes numbered (.start t)
    (Cursor.advance (.start t) t.scalars [])).2 ⟨_, mem, by simp [Cursor.start], rfl⟩
  exact Expr.possible_of_passes (passes_anchored.2 ⟨rfl, rfl, here⟩)

/-- A rule without conditions matches the texts in the language of its expression. -/
theorem Sound.matches_of_mem {r : Rule} (sound : Sound r) {c : Compiled} (compiled : r.compile = .ok c)
    (free : r.expr.isFree = true) {t : Bytes} (mem : t.scalars ∈ r.expr.language) :
    r.Matches t := by
  have searches := sound.searches compiled
  rw [matches_iff_occursIn compiled, Regex.occursIn, Regex.find?,
    sound.lead_none_of_mem compiled free mem, searches.whole, isSome_find?_anchored]
  · rwa [Expr.numbered, Expr.language_numberFrom]
  · rwa [Expr.numbered, Expr.isFree_numberFrom]

/-- What stands between two places is made of the characters between them, and is read as they
    stand. -/
theorem scalars_slice {text : Bytes} {c d : Cursor} (onward : c ∈ (Cursor.start text).onward)
    {w : List Scalar} (rest : c.rest = w ++ d.rest) (eq : d = c.advance w d.rest) :
    (text.slice c.offset d.offset).scalars = w := by
  obtain ⟨taken, split, place⟩ := Cursor.mem_onward.1 onward
  have whole : text.scalars = taken ++ (w ++ d.rest) := rest ▸ split
  have bytes : text = Bytes.ofScalars taken ++ (Bytes.ofScalars w ++ Bytes.ofScalars d.rest) := by
    rw [← Bytes.ofScalars_append, ← Bytes.ofScalars_append, ← whole, Bytes.ofScalars_scalars]
  have start : c.offset = (Bytes.ofScalars taken).length := by
    rw [place]
    simp [Cursor.start]
  have stop : d.offset = c.offset + (Bytes.ofScalars w).length := by
    rw [eq]
    simp
  have slice : text.slice c.offset d.offset = Bytes.ofScalars w := by
    rw [Bytes.slice, stop, Nat.add_sub_cancel_left, start]
    conv_lhs => rw [bytes]
    rw [List.drop_left, List.take_left]
  have legible : Bytes.Legible (taken ++ (w ++ d.rest)) := whole ▸ Bytes.legible_scalars text
  rw [slice]
  exact Bytes.legible_of_append_left (Bytes.legible_of_append_right legible)

/-- What a group took of a text is in the language of the rule of its entry. -/
theorem Sound.mem_captured {r : Rule} (sound : Sound r) {c : Compiled} (compiled : r.compile = .ok c) {regex : Regex}
    (names : regex.names = r.expr.names) {found : Program.Found} {text : Bytes} {place : Cursor}
    (onward : place ∈ (Cursor.start text).onward)
    (passage : r.expr.numbered.passes place found.stop found.marks) {e : Entry Rule}
    (mem : e ∈ r.entries) (isNamed : e.isNamed = true) {start stop : Nat}
    (span : Matcher.spanOf? regex found e.name = some (start, stop)) (isFree : e.rule.expr.isFree = true) :
    (text.slice start stop).scalars ∈ e.rule.expr.language := by
  obtain ⟨body, before, after, marks, numbers, onward', here, rfl, rfl⟩ :=
    sound.captured compiled names passage mem isNamed span
  obtain ⟨next, rfl⟩ := numbers
  rw [← Expr.isFree_numberFrom e.rule.expr next] at isFree
  obtain ⟨w, read, rest, eq⟩ := (Expr.reads_passes isFree _ _).1 ⟨_, here⟩
  rw [Expr.language_numberFrom] at read
  rwa [scalars_slice (Cursor.onward_trans onward onward') rest eq]

end Rule

/-! ### Trees -/

namespace Tree

open Rule (Matches)

mutual

/-- True of a tree of a rule each child of which, at any depth, is matched by the rule of the named
    entry that it is called after. -/
def Recognised (r : Rule) : Tree → Prop
  | node _ _ _ children => RecognisedAll r.entries children

/-- True of trees each of which is matched by the rule of the named entry that it is called after,
    with all that lies below it. -/
def RecognisedAll (entries : List (Entry Rule)) : List Tree → Prop
  | [] => True
  | t :: rest =>
      (∃ e ∈ entries, e.isNamed = true ∧ t.name = e.name ∧ e.rule.Matches t.text ∧
        Recognised e.rule t) ∧
        RecognisedAll entries rest

end

theorem recognisedAll_iff {entries : List (Entry Rule)} {trees : List Tree} :
    RecognisedAll entries trees ↔
      ∀ t ∈ trees, ∃ e ∈ entries, e.isNamed = true ∧ t.name = e.name ∧ e.rule.Matches t.text ∧
        Recognised e.rule t := by
  induction trees with
  | nil => simp [RecognisedAll]
  | cons t rest ih => simp [RecognisedAll, ih]

theorem recognised_iff {r : Rule} {t : Tree} :
    Recognised r t ↔ RecognisedAll r.entries t.children := by
  obtain ⟨name, span, offset, children⟩ := t
  rw [Recognised]
  rfl

end Tree

namespace Rule

/-- The tree for a match of a rule is recognised if those of the entries are. -/
theorem Sound.recognised_nodeOf {r : Rule} (sound : Sound r) (free : ConditionFree r) {c : Compiled}
    (compiled : r.compile = .ok c) {regex : Regex} (names : regex.names = r.expr.names)
    {found : Program.Found} {text : Bytes}
    (passage : r.kind ≠ .regex → ∃ place ∈ (Cursor.start text).onward,
      r.expr.numbered.passes place found.stop found.marks)
    {base : Nat} {t : Tree} (node : NodeOf r regex found text base t)
    (below : ∀ e ∈ r.entries, ∀ {d : Compiled} {span offset t}, e.rule.compile = .ok d →
      e.rule.expr.isFree = true → Bytes.scalars span ∈ e.rule.expr.language →
      e.rule.matcher.descend span offset = .ok t → t.text = span ∧ t.Recognised e.rule) :
    t.Recognised r := by
  refine Tree.recognised_iff.2 (Tree.recognisedAll_iff.2 fun child mem => ?_)
  obtain ⟨⟨e, start, stop⟩, mem, built⟩ := exists_of_forall₂ node.children mem
  obtain ⟨entry, isNamed, span⟩ := mem_taken mem
  have combined : r.kind ≠ .regex := by
    cases r with
    | regex => cases entry
    | text => simp [kind]
    | combine => simp [kind]
  have name := built.name_eq
  obtain ⟨inner, descended, rfl⟩ := built
  obtain ⟨place, onward, here⟩ := passage combined
  obtain ⟨d, compiled', -⟩ := descend_ok descended
  have sound' := sound.entry (mem_reach entry)
  have isFree := sound'.isFree_expr (sound'.searches compiled').read (free.entry entry)
  have read := sound.mem_captured compiled names onward here entry isNamed span isFree
  obtain ⟨whole, recognised⟩ := below e entry compiled' isFree read descended
  refine ⟨e, entry, isNamed, name, ?_, ?_⟩
  · rw [Tree.text_rename, whole]
    exact sound'.matches_of_mem compiled' isFree read
  · rw [Tree.recognised_iff, Tree.children_rename, ← Tree.recognised_iff]
    exact recognised

/-- A span in the language of a rule is taken as a whole, and its tree is recognised. By induction on
    the rule. -/
theorem Sound.recognised_descend {r : Rule} (sound : Sound r) (free : ConditionFree r) :
    ∀ {c : Compiled} {span : Bytes} {offset : Nat} {t : Tree}, r.compile = .ok c →
      r.expr.isFree = true → span.scalars ∈ r.expr.language →
      r.matcher.descend span offset = .ok t → t.text = span ∧ t.Recognised r := by
  induction r using of_entries with
  | step r ih =>
  intro c span offset t compiled isFree mem built
  have searches := sound.searches compiled
  obtain ⟨c', compiled', cases⟩ := descend_ok built
  cases compiled.symm.trans compiled'
  obtain ⟨missed, -⟩ | ⟨found, whole, node⟩ := cases
  · have matched := sound.matches_of_mem compiled isFree mem
    rw [matches_iff_occursIn compiled, Regex.occursIn, missed] at matched
    cases matched
  · obtain ⟨start, finish, passage⟩ :=
      searches.passes_whole (sound.lead_none_of_mem compiled isFree mem) whole
    refine ⟨by rw [node.text_eq, start, finish]; simp [Bytes.slice], ?_⟩
    exact sound.recognised_nodeOf free compiled searches.whole_names (fun _ => passage) node
      fun e mem _ _ _ _ => ih e mem (sound.entry (mem_reach mem)) (free.entry mem)

/-- The tree of a match is recognised. -/
theorem Sound.recognised_of_mem {r : Rule} (sound : Sound r) (free : ConditionFree r) {text : Bytes}
    {t : Tree} (mem : t ∈ r.nodes text) : t.Recognised r := by
  obtain ⟨c, found, compiled, mem, node⟩ := nodeOf_of_mem mem
  exact sound.recognised_nodeOf free compiled (sound.searches compiled).names
    (fun kind => sound.passes_search kind compiled mem) node fun e mem _ _ _ _ =>
      (sound.entry (mem_reach mem)).recognised_descend (free.entry mem)

/-- Every child in a tree of a rule whose patterns hold no conditions is matched, as a whole, by the
    rule of the entry that it is called after. -/
theorem children_recognised {r : Rule} (sound : Sound r) (free : ConditionFree r) (text : Bytes) :
    ∀ t ∈ r.nodes text, t.Recognised r :=
  fun _ mem => sound.recognised_of_mem free mem

theorem children_recognised_sample : Sound Sample.whole ∧ ConditionFree Sample.whole ∧
    ∀ t ∈ Sample.whole.nodes "x7.", t.Recognised Sample.whole :=
  ⟨Sample.sound_whole, Sample.conditionFree_whole,
    children_recognised Sample.sound_whole Sample.conditionFree_whole "x7."⟩

end Rule

end Rulebook

import Rulebook.Proofs.Definition.Lines
import Rulebook.Proofs.Definition.References
import Rulebook.Proofs.Tree.Recognition

/-!
# The trees of lines

The grammar of definitions yields one tree for each line that it takes, and the tree depends on
nothing but the line and where it starts: `Bootstrap.trees_line`.
-/

namespace Rulebook

open Pattern Bytes

theorem Pattern.Expr.TakesLines.numbered {e : Expr} {takes : Bytes → Bool} (h : e.TakesLines takes) :
    e.numbered.TakesLines takes where
  begins leads := h.begins ((Expr.leads_numbered ..).1 leads)
  some_char leads := h.some_char ((Expr.leads_numbered ..).1 leads)
  line lines begins text := (Expr.leads_numbered ..).trans (h.line lines begins text)

namespace Bootstrap

open Rule

/-- The entry of the grammar that takes a line, if one does. -/
def lineTaker? (l : Bytes) : Option (Entry Rule) := line.entries.find? (·.rule.recognises l)

/-- The tree of a line that an entry takes. -/
def lineTree (e : Entry Rule) (offset : Nat) (l : Bytes) : Except Error Tree :=
  (e.rule.matcher.descend l offset).map fun t => .node [] l offset [t.rename e.name]

theorem mem_entries_line {e : Entry Rule} :
    e ∈ line.entries ↔ e = ⟨"comment", comment⟩ ∨ e = ⟨"ruleEntry", ruleEntry⟩ := by
  simp [line, oneOf, entries]

theorem isNamed_line : ∀ e ∈ line.entries, e.isNamed = true := by
  intro e mem
  obtain rfl | rfl := mem_entries_line.1 mem <;> decide

theorem takesLines_line : line.expr.TakesLines fun l => (lineTaker? l).isSome := by
  have leads {c d : Cursor} : line.expr.Leads c d ↔
      comment.expr.Leads c d ∨ ruleEntry.expr.Leads c d := by
    rw [line, oneOf, modest_line.sound.leads_oneOf (modest_isRead modest_line (by decide))
      modest_line.plain.texts (by simp)]
    simp
  have known (l : Bytes) : (lineTaker? l).isSome = true ↔
      comment.recognises l = true ∨ ruleEntry.recognises l = true := by
    simp [lineTaker?, line, oneOf, entries]
  refine ⟨fun h => ?_, fun h => ?_, fun {l rest c d} lines begins text => ?_⟩
  · exact (leads.1 h).elim takesLines_comment.begins takesLines_ruleEntry.begins
  · exact (leads.1 h).elim takesLines_comment.some_char takesLines_ruleEntry.some_char
  · rw [leads, takesLines_comment.line lines begins text, takesLines_ruleEntry.line lines begins text,
      known, or_and_right]

/-- What an entry of the grammar takes of a line is the line. -/
theorem takesLines_entry {e : Entry Rule} (mem : e ∈ line.entries) :
    e.rule.expr.TakesLines e.rule.recognises := by
  obtain rfl | rfl := mem_entries_line.1 mem
  · exact takesLines_comment
  · exact takesLines_ruleEntry

theorem lineTaker_of_mem {e : Entry Rule} (mem : e ∈ line.entries) {l : Bytes}
    (taken : e.rule.recognises l = true) : lineTaker? l = some e := by
  obtain rfl | rfl := mem_entries_line.1 mem
  · simp only at taken
    simp [lineTaker?, line, oneOf, entries, taken]
  · have other : comment.recognises l = false := by
      by_contra both
      have both := not_recognises_both (by simpa using both)
      rw [both] at taken
      cases taken
    simp only at taken
    simp [lineTaker?, line, oneOf, entries, taken, other]

/-- Between the start and the end of a line only the line itself is taken. -/
theorem takesLines_within {e : Expr} {takes : Bytes → Bool} (h : e.TakesLines takes) {c c' d' : Cursor}
    {l : Bytes} {rest : List Bytes} (lines : Lines (l :: rest))
    (text : c.rest = l.scalars ++ scalars rest.flatten) (onward : c' ∈ c.onward)
    (leads : e.Leads c' d') (within : d'.offset ≤ c.offset + l.length) :
    takes l = true ∧ c'.offset = c.offset ∧ d'.offset = c.offset + l.length := by
  obtain ⟨skipped, l', later, eq, rfl⟩ := Cursor.exists_line lines
    (text.trans lines.scalars_append.symm) onward (h.begins leads) (h.some_char leads)
  have lines' : Lines (l' :: later) := (eq ▸ lines).sublist (List.sublist_append_right ..)
  obtain ⟨taken, rfl⟩ := (h.line lines' (h.begins leads) lines'.scalars_append).1 leads
  have some_byte := List.length_pos_iff.2 lines'.ne_nil
  simp only [Cursor.offset_advance, ofScalars_scalars] at within ⊢
  cases skipped with
  | nil =>
    cases eq
    exact ⟨taken, by simp, by simp⟩
  | cons first skipped =>
    cases eq
    simp only [List.flatten_cons, List.length_append] at within
    omega

/-- The tree for the match of a line. -/
theorem lineTree_of_nodeOf {c : Compiled} (compiled : line.compile = .ok c) {source : Bytes}
    {found : Program.Found} {t : Tree} (mem : found ∈ c.search.findAll source)
    (node : NodeOf line c.search found source 0 t) {place : Cursor}
    (onward : place ∈ (Cursor.start source).onward) {l : Bytes} {rest : List Bytes}
    (here : line.expr.numbered.LineAt place l rest found) :
    ∃ e, lineTaker? l = some e ∧ lineTree e place.offset l = .ok t := by
  have sound := modest_line.sound
  have searches := sound.searches compiled
  have passage := Expr.reaches_iff.1 here.found.path
  have arranges := Sound.arranges_taken sound searches.read searches.names searches.unique passage
  have fits := Regex.findAll_fits (compile_ok compiled).1 mem
  have start : found.start = place.offset := here.found.start
  have finish := here.finish
  have slice : source.slice place.offset (place.offset + l.length) = l := by
    have text : place.rest = l.scalars ++ found.stop.rest := by
      rw [here.stop]
      exact here.text
    have stop : found.stop = place.advance l.scalars found.stop.rest := by
      rw [here.stop, Cursor.rest_advance]
    have same := congrArg ofScalars (scalars_slice onward text stop)
    rwa [ofScalars_scalars, ofScalars_scalars, show found.stop.offset = _ from finish] at same
  have one : (taken c.search found line.entries).length = 1 := by
    have shows := arranges.shows.2.2 (by simp) isNamed_line
    rwa [List.length_map] at shows
  obtain ⟨⟨e, first, last⟩, eq⟩ := List.length_eq_one_iff.1 one
  obtain ⟨entry, isNamed, span⟩ :=
    mem_taken (eq ▸ List.mem_singleton_self _ : (e, first, last) ∈ taken c.search found line.entries)
  obtain ⟨body, c', d', inner, numbers, onward', passage', rfl, rfl⟩ :=
    sound.captured compiled searches.names passage entry isNamed span
  have leads : e.rule.expr.Leads c' d' := numbers.leads_iff.1 ⟨_, passage'⟩
  have low : d'.offset ≤ place.offset + l.length := by
    obtain ⟨number, -, group⟩ := Option.bind_eq_some_iff.1 span
    exact finish ▸ (fits.group group).2.2
  obtain ⟨takes, first, last⟩ :=
    takesLines_within (takesLines_entry entry) here.lines here.text onward' leads low
  refine ⟨e, lineTaker_of_mem entry takes, ?_⟩
  have children := node.children
  rw [eq] at children
  obtain ⟨child, rest, ⟨inner, built, rfl⟩, none, whole⟩ := List.forall₂_cons_left_iff.1 children
  rw [List.forall₂_nil_left_iff.1 none] at whole
  simp only [first, last, slice, Nat.zero_add] at built
  rw [lineTree, built]
  have text := node.text_eq
  have offset := node.offset_eq
  rw [start, finish, slice] at text
  rw [start, Nat.zero_add] at offset
  have name := node.name_eq
  obtain ⟨name', text', offset', children'⟩ := t
  simp only [Tree.name, Tree.text, Tree.offset, Tree.children] at name text offset whole
  subst name text offset whole
  rfl

/-- The trees of the grammar in a text are those of the lines that it takes. -/
theorem trees_line (source : Bytes) :
    line.trees source = (placed 0 (cutLines source)).filterMap fun p =>
      (lineTaker? p.2).map (lineTree · p.1 p.2) := by
  have sound := modest_line.sound
  obtain ⟨c, compiled⟩ := ready_line.accepted
  have searches := sound.searches compiled
  have nodes := ready_line.forall₂_nodes compiled source
  have lines := takesLines_line.numbered.forall₂_findAll source
  have findAll : c.search.findAll source =
      (Program.ofExpr line.expr.numbered).findAll none (.start source) := by
    rw [Regex.findAll, (sound.lead_none (by simp [line, oneOf, kind]) compiled).1, searches.search]
  rw [ready_line.trees_eq]
  have built : List.Forall₂ (fun p t => ∃ e, lineTaker? p.2 = some e ∧ lineTree e p.1 p.2 = .ok t)
      ((placed 0 (cutLines source)).filter fun p => (lineTaker? p.2).isSome) (line.nodes source) := by
    have nodes := (List.forall₂_and_left _ _).2 ⟨fun f (mem : f ∈ _) => mem, nodes⟩
    rw [← findAll] at lines
    refine forall₂_trans lines nodes fun line node => ?_
    obtain ⟨d, onward, rest, offset, here⟩ := line
    obtain ⟨mem, node⟩ := node
    rw [← offset]
    exact lineTree_of_nodeOf compiled mem node onward here
  generalize placed 0 (cutLines source) = ps at built
  generalize line.nodes source = ts at built
  induction ps generalizing ts with
  | nil =>
    cases built
    rfl
  | cons p ps ih =>
    cases entry : lineTaker? p.2 with
    | none =>
      rw [List.filter_cons_of_neg (by simp [entry])] at built
      rw [List.filterMap_cons_none (by simp [entry]), ih ts built]
    | some e =>
      rw [List.filter_cons_of_pos (by simp [entry])] at built
      obtain ⟨t, ts, ⟨e', entry', tree⟩, others, rfl⟩ := List.forall₂_cons_left_iff.1 built
      cases entry.symm.trans entry'
      rw [List.filterMap_cons_some (by rw [entry, Option.map_some, tree]), List.map_cons,
        ih ts others]

end Bootstrap

end Rulebook

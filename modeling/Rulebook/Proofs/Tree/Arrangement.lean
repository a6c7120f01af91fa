import Rulebook.Proofs.Pattern.Captures
import Rulebook.Proofs.Rule.Composition
import Rulebook.Proofs.Tree.Faithful

/-!
# Which children a node has

The kind of a rule says which of its named entries become children of a match, and the children
follow one another: `Rule.Sound.arranged`.
-/

namespace Rulebook

open Pattern

/-- True of the combinators that match the empty text whatever their entries are. -/
def Combinator.isOptional : Combinator → Bool
  | .optional => true
  | .zeroOrMore _ => true
  | _ => false

/-- What a combinator says of the names of the entries that took part in a match. -/
def Combinator.Shows (how : Combinator) (entries : List (Entry Rule)) (names : List Bytes) : Prop :=
  let all := (entries.filter Entry.isNamed).map Entry.name
  match how with
  | .seq => names = all
  | .oneOrMore _ => names = all
  | .optional => names = all ∨ names = []
  | .zeroOrMore _ => names = all ∨ names = []
  | .oneOf =>
      names.Sublist all ∧ names.length ≤ 1 ∧
        (entries ≠ [] → (∀ e ∈ entries, e.isNamed = true) → names.length = 1)

namespace Rule

/-! ### Numbers of entries -/

/-- The number of a group with a name is that of the only group with that name. -/
theorem groupNumber?_of_mem {regex : Regex} {e : Expr} (names : regex.names = e.names)
    (numbers : e.numbers = List.range' 1 e.slots.length) (unique : repeated? [] e.names = none)
    {k : Nat} {name : Bytes} (mem : (k, name) ∈ e.slots) (isNamed : name ≠ []) :
    regex.groupNumber? name = some k := by
  obtain ⟨i, lt, eq⟩ := List.mem_iff_getElem.1 mem
  have lt' : i < e.names.length := by rwa [← Expr.map_snd_slots, List.length_map]
  have here : e.names[i] = name := by
    simp only [← Expr.map_snd_slots, List.getElem_map, eq]
  have number : 1 + i = k := by
    have at_i : e.numbers[i]? = some k := by simp [Expr.numbers, List.getElem?_eq_getElem lt, eq]
    rw [numbers, List.getElem?_range' (by exact lt)] at at_i
    simpa using at_i
  have distinct := (repeated?_eq_none.1 unique).1
  rw [List.Nodup, List.pairwise_filter] at distinct
  have first : e.names.findIdx? (· == name) = some i := by
    rw [List.findIdx?_eq_some_iff_getElem]
    refine ⟨lt', by simp [here], fun j before => ?_⟩
    have ne := List.pairwise_iff_getElem.1 distinct j i (by omega) lt' before
    rw [here] at ne
    intro same
    simp only [beq_iff_eq] at same
    rw [same] at ne
    exact ne (by simpa using isNamed) (by simpa using isNamed) rfl
  rw [Regex.groupNumber?, names, first]
  simp [← number, Nat.add_comm]

theorem numbers_numbered (e : Expr) :
    e.numbered.numbers = List.range' 1 e.numbered.slots.length := by
  have numbers := (Expr.numbers_numberFrom e 1).2
  have length : e.numbered.slots.length = e.slots.length := by
    rw [← List.length_map (f := Prod.fst)]
    exact (congrArg List.length numbers).trans (by simp)
  rw [length]
  exact numbers

theorem titled_exprOf {part : Expr} {e : Entry Rule} (h : Expr.Numbers part (exprOf e)) :
    part.Titled e.name := by
  intro isNamed
  obtain ⟨next, rfl⟩ := h
  rw [exprOf, entryExpr, if_neg (by simpa using isNamed)]
  exact ⟨next, _, rfl⟩

/-- A combination that has been read is one group around its parts, each of which is a group if it
    has a name. -/
theorem parts_of_isRead {tag : Nat} {how : Combinator} {entries : List (Entry Rule)}
    (even : ∀ e ∈ reach entries, Even e.rule) (read : IsRead (combine tag how entries)) :
    ∃ parts, Expr.Regroups (combine tag how entries).expr.numbered
        (how.repeats (.group 1 [] (how.joins parts))) ∧
      List.Forall₂ Expr.Titled parts ((shown how entries).map Entry.name) := by
  have same := (read.combine even).2.numbered
  have around (e : Expr) : (how.repeats (.group 0 [] e)).numbered =
      how.repeats (.group 1 [] (e.numberFrom 2).1) := by
    cases how <;> rfl
  have inside : ∃ parts, ((how.joins ((shown how entries).map exprOf)).numberFrom 2).1 =
      how.joins parts ∧ List.Forall₂ Expr.Numbers parts ((shown how entries).map exprOf) := by
    unfold Combinator.joins
    split
    · exact Expr.numberFrom_choice _ 2
    · exact Expr.numberFrom_concat _ 2
  obtain ⟨parts, eq, numbered⟩ := inside
  rw [around, eq] at same
  rw [List.forall₂_map_right_iff] at numbered
  exact ⟨parts, same, List.forall₂_map_right_iff.2 (numbered.imp fun _ _ => titled_exprOf)⟩

theorem names_fuse (pending : Bytes) (entries : List (Entry Rule)) :
    ((fuse pending entries).map Entry.name).filter (!·.isEmpty) =
      (entries.filter Entry.isNamed).map Entry.name := by
  induction entries generalizing pending with
  | nil => rfl
  | cons e rest ih =>
    obtain ⟨name, r⟩ := e
    rw [fuse]
    split
    · rename_i literal here
      have anonymous : name = [] := by
        cases r with
        | text tag source =>
          rw [literal?] at here
          split at here
          · simp_all
          · cases here
        | _ => cases here
      rw [ih, List.filter_cons_of_neg (by simp [Entry.isNamed, anonymous])]
    · cases name with
      | nil => simpa [Entry.isNamed] using ih []
      | cons b name => simpa [Entry.isNamed] using ih []

/-- The entries that a pattern shows have the names of the entries. -/
theorem names_shown (how : Combinator) (entries : List (Entry Rule)) :
    ((shown how entries).map Entry.name).filter (!·.isEmpty) =
      (entries.filter Entry.isNamed).map Entry.name := by
  unfold shown
  split
  · rw [List.filter_map]
    rfl
  · exact names_fuse [] entries

/-! ### The last round -/

/-- What a combination has noted since the start of its last round, if there was one. -/
theorem passes_repeats {how : Combinator} {e : Expr} {c d : Cursor} {m : Marks}
    (h : (how.repeats e).passes c d m) :
    (m = [] ∧ how.isOptional = true) ∨
      ∃ c' last before, e.passes c' d last ∧ m = last ++ before ∧ (how = .oneOf → before = []) := by
  have rounds {n : Nat} (h : e.passes.power (n + 1) c d m) :
      ∃ c' last before, e.passes c' d last ∧ m = last ++ before := by
    rw [Passage.power_succ_last] at h
    obtain ⟨c', before, last, -, here, rfl⟩ := h
    exact ⟨c', last, before, here, rfl⟩
  cases how with
  | seq => exact .inr ⟨c, m, [], h, by simp, by simp⟩
  | oneOf => exact .inr ⟨c, m, [], h, by simp, by simp⟩
  | optional =>
    obtain here | ⟨-, none⟩ := h
    · exact .inr ⟨c, m, [], here, by simp, by simp⟩
    · exact .inl ⟨none, rfl⟩
  | zeroOrMore isLazy =>
    obtain ⟨n, -, here⟩ := h
    cases n with
    | zero => exact .inl ⟨here.2, rfl⟩
    | succ n =>
      obtain ⟨c', last, before, here, eq⟩ := rounds here
      exact .inr ⟨c', last, before, here, eq, by simp⟩
  | oneOrMore isLazy =>
    obtain ⟨n, le, here⟩ := h
    cases n with
    | zero => exact absurd le (by omega)
    | succ n =>
      obtain ⟨c', last, before, here, eq⟩ := rounds here
      exact .inr ⟨c', last, before, here, eq, by simp⟩

/-! ### Entries that took part -/

section

variable {regex : Regex} {found : Program.Found} {entries : List (Entry Rule)}

theorem taken_append (entries others : List (Entry Rule)) :
    taken regex found (entries ++ others) =
      taken regex found entries ++ taken regex found others := List.filterMap_append

theorem taken_eq_nil (entries : List (Entry Rule))
    (h : ∀ e ∈ entries, e.isNamed = true → Matcher.spanOf? regex found e.name = none) :
    taken regex found entries = [] := by
  rw [taken, List.filterMap_eq_nil_iff]
  intro e mem
  split
  · rw [h e mem ‹_›]
    rfl
  · rfl

/-- If all named entries took part, they are all there with their spans. -/
theorem taken_eq_all {spans : List (Nat × Nat)}
    (h : List.Forall₂ (fun name span => Matcher.spanOf? regex found name = some span)
      ((entries.filter Entry.isNamed).map Entry.name) spans) :
    (taken regex found entries).map Prod.fst = entries.filter Entry.isNamed ∧
      (taken regex found entries).map Prod.snd = spans := by
  induction entries generalizing spans with
  | nil =>
    cases h
    exact ⟨rfl, rfl⟩
  | cons e rest ih =>
    by_cases isNamed : e.isNamed = true
    · rw [List.filter_cons_of_pos isNamed] at h ⊢
      obtain _ | ⟨here, others⟩ := h
      obtain ⟨first, second⟩ := ih others
      simp only [taken, List.filterMap_cons, isNamed, here, if_true, Option.map_some,
        List.map_cons] at first second ⊢
      exact ⟨congrArg _ first, congrArg _ second⟩
    · rw [List.filter_cons_of_neg isNamed] at h ⊢
      simp only [taken, List.filterMap_cons, isNamed] at ih ⊢
      exact ih h

variable {parts : List Expr} {c d : Cursor} {m : Marks}

/-- All named entries of a concatenation took part, one after another. -/
theorem taken_concat {names : List Bytes} (titled : List.Forall₂ Expr.Titled parts names)
    (same : names.filter (!·.isEmpty) = (entries.filter Entry.isNamed).map Entry.name)
    (distinct : (Expr.concat parts).numbers.Nodup) (here : (Expr.concat parts).passes c d m)
    (linked : ∀ {k name span}, (k, name) ∈ (Expr.concat parts).slots → name ≠ [] →
      m.span? k = some span → Matcher.spanOf? regex found name = some span) :
    (taken regex found entries).map Prod.fst = entries.filter Entry.isNamed ∧
      (taken regex found entries).Pairwise (·.2.2 ≤ ·.2.1) := by
  obtain ⟨spans, noted, row⟩ := Expr.spans_concat titled distinct here
  have took : List.Forall₂ (fun name span => Matcher.spanOf? regex found name = some span)
      (names.filter (!·.isEmpty)) spans := by
    have isNamed : ∀ name ∈ names.filter (!·.isEmpty), name ≠ [] := by
      intro name mem
      simpa using (List.mem_filter.1 mem).2
    exact ((List.forall₂_and_left _ _).2 ⟨isNamed, noted⟩).imp
      fun _ _ ⟨isNamed, _, mem, span⟩ => linked mem isNamed span
  rw [same] at took
  obtain ⟨first, second⟩ := taken_eq_all took
  refine ⟨first, ?_⟩
  have apart := row.apart
  rwa [← second, List.pairwise_map] at apart

/-- At most one entry of a choice took part, and one did if all have names. -/
theorem taken_choice (titled : List.Forall₂ Expr.Titled parts (entries.map Entry.name))
    (several : entries ≠ []) (distinct : (Expr.choice parts).numbers.Nodup)
    (here : (Expr.choice parts).passes c d m)
    (linked : ∀ {k name}, (k, name) ∈ (Expr.choice parts).slots → name ≠ [] →
      Matcher.spanOf? regex found name = m.span? k) :
    ∃ e ∈ entries, (taken regex found entries).map Prod.fst = [e].filter Entry.isNamed := by
  have nonempty : parts ≠ [] := by
    rintro rfl
    simp at titled
    exact several titled
  obtain ⟨before, name, after, eq, noted, missing⟩ :=
    Expr.spans_choice titled nonempty distinct here
  obtain ⟨first, others, rfl, rfl, tail⟩ := List.map_eq_append_iff.1 eq
  obtain ⟨e, last, rfl, rfl, rfl⟩ := List.map_eq_cons_iff.1 tail
  have absent (d : Entry Rule) (mem : d ∈ first ++ last) (isNamed : d.isNamed = true) :
      Matcher.spanOf? regex found d.name = none := by
    have isNamed : d.name ≠ [] := by simpa [Entry.isNamed] using isNamed
    obtain ⟨k, mem, none⟩ := missing d.name
      (by rw [← List.map_append]; exact List.mem_map_of_mem mem) isNamed
    rw [linked mem isNamed, none]
  refine ⟨e, by simp, ?_⟩
  rw [taken_append, taken_eq_nil first fun d mem => absent d (List.mem_append_left _ mem),
    ← List.singleton_append, taken_append,
    taken_eq_nil last fun d mem => absent d (List.mem_append_right _ mem)]
  by_cases isNamed : e.isNamed = true
  · obtain ⟨k, span, mem, noted⟩ := noted (by simpa [Entry.isNamed] using isNamed)
    have took := linked mem (by simpa [Entry.isNamed] using isNamed)
    rw [noted] at took
    simp [taken, isNamed, took]
  · simp [taken, isNamed]

end

theorem spanOf?_of_mem {r : Rule} {regex : Regex} {found : Program.Found}
    (names : regex.names = r.expr.names) (unique : repeated? [] r.expr.names = none) {k : Nat}
    {name : Bytes} (mem : (k, name) ∈ r.expr.numbered.slots) (isNamed : name ≠ []) :
    Matcher.spanOf? regex found name = Marks.span? found.marks k := by
  have number := groupNumber?_of_mem (names.trans (Expr.names_numbered _).symm) (numbers_numbered _)
    (by rwa [Expr.names_numbered]) mem isNamed
  rw [Matcher.spanOf?, number]
  rfl

/-- What is shown of the entries of a combination that took part in a match. -/
structure Arranges (how : Combinator) (entries : List (Entry Rule))
    (parts : List (Entry Rule × Nat × Nat)) : Prop where
  shows : how.Shows entries (parts.map (·.1.name))
  apart : parts.Pairwise (·.2.2 ≤ ·.2.1)

theorem arranges_nil {how : Combinator} (isOptional : how.isOptional = true)
    (entries : List (Entry Rule)) : Arranges how entries [] := by
  refine ⟨?_, .nil⟩
  cases how with
  | optional => exact .inr rfl
  | zeroOrMore isLazy => exact .inr rfl
  | _ => cases isOptional

theorem arranges_all {how : Combinator} (joined : how ≠ .oneOf) {entries : List (Entry Rule)}
    {parts : List (Entry Rule × Nat × Nat)} (all : parts.map Prod.fst = entries.filter Entry.isNamed)
    (apart : parts.Pairwise (·.2.2 ≤ ·.2.1)) : Arranges how entries parts := by
  have names : parts.map (·.1.name) = (entries.filter Entry.isNamed).map Entry.name := by
    rw [← all, List.map_map]
    rfl
  refine ⟨?_, apart⟩
  cases how with
  | seq => exact names
  | oneOf => exact absurd rfl joined
  | optional => exact .inl names
  | zeroOrMore isLazy => exact .inl names
  | oneOrMore isLazy => exact names

theorem arranges_one {entries : List (Entry Rule)} {parts : List (Entry Rule × Nat × Nat)}
    (sub : (parts.map Prod.fst).Sublist (entries.filter Entry.isNamed))
    (one : entries ≠ [] → ∃ e ∈ entries, parts.map Prod.fst = [e].filter Entry.isNamed) :
    Arranges .oneOf entries parts := by
  have names : parts.map (·.1.name) = (parts.map Prod.fst).map Entry.name := by
    rw [List.map_map]
    rfl
  have short : parts.length ≤ 1 := by
    by_cases several : entries = []
    · subst several
      have := sub.length_le
      simp only [List.length_map, List.filter_nil, List.length_nil] at this
      omega
    · obtain ⟨e, -, eq⟩ := one several
      have := List.length_filter_le Entry.isNamed [e]
      rw [← eq] at this
      simpa using this
  refine ⟨⟨?_, ?_, fun several all => ?_⟩, ?_⟩
  · rw [names]
    exact sub.map _
  · simpa using short
  · obtain ⟨e, mem, eq⟩ := one several
    rw [names, eq]
    simp [all e mem]
  · match parts, short with
    | [], _ => exact .nil
    | [part], _ => exact List.pairwise_singleton _ _

/-- The kind of a combination fixes which of its entries take part in a match. -/
theorem Sound.arranges_taken {tag : Nat} {how : Combinator} {entries : List (Entry Rule)}
    {regex : Regex} {found : Program.Found} {place : Cursor}
    (sound : Sound (.combine tag how entries)) (read : IsRead (.combine tag how entries))
    (names : regex.names = (expr (.combine tag how entries)).names)
    (unique : repeated? [] (expr (.combine tag how entries)).names = none)
    (h : (expr (.combine tag how entries)).numbered.passes place found.stop found.marks) :
    Arranges how entries (taken regex found entries) := by
  have even : ∀ e ∈ reach entries, Even e.rule := sound.even
  obtain ⟨parts, same, titled⟩ := parts_of_isRead even read
  have slots : (expr (.combine tag how entries)).numbered.slots =
      (1, []) :: (how.joins parts).slots := by
    rw [same.slots_eq]
    cases how <;> rfl
  have distinct : (1 :: (how.joins parts).numbers).Nodup := by
    have numbers := numbers_numbered (expr (.combine tag how entries))
    rw [Expr.numbers, slots, List.map_cons] at numbers
    exact (congrArg List.Nodup numbers).mpr List.nodup_range'
  obtain ⟨outside, distinct⟩ := List.nodup_cons.1 distinct
  rw [same.passes_eq] at h
  obtain ⟨none, isOptional⟩ | ⟨c, last, before, ⟨inner, here, rfl⟩, eq, single⟩ := passes_repeats h
  · rw [taken_eq_nil entries fun e _ _ => ?_]
    · exact arranges_nil isOptional entries
    · rw [Matcher.spanOf?, Option.bind_eq_none_iff]
      intro k _
      rw [Program.Found.group?_eq, none]
      rfl
  -- The spans are those that the last round has noted inside the group of the combination.
  have span {k : Nat} {name : Bytes} (mem : (k, name) ∈ (how.joins parts).slots)
      (isNamed : name ≠ []) :
      Matcher.spanOf? regex found name = Marks.span? found.marks k ∧
        Marks.span? ((Expr.slot 1 + 1, found.stop.offset) :: (inner ++ [(Expr.slot 1, c.offset)])) k =
          inner.span? k := by
    refine ⟨spanOf?_of_mem names unique (slots ▸ List.mem_cons_of_mem _ mem) isNamed, ?_⟩
    refine Marks.span?_group_of_ne ?_ ..
    rintro rfl
    exact outside (List.mem_map_of_mem mem)
  by_cases choice : how = .oneOf
  · subst choice
    refine arranges_one (taken_sublist regex found entries) fun several => ?_
    refine taken_choice titled several distinct here fun mem isNamed => ?_
    obtain ⟨link, same⟩ := span mem isNamed
    rw [link, eq, single rfl, List.append_nil, same]
  · rw [Combinator.joins, if_neg choice] at here distinct span
    obtain ⟨all, apart⟩ := taken_concat titled (names_shown how entries) distinct here
      fun mem isNamed noted => by
        obtain ⟨link, same⟩ := span mem isNamed
        rw [link, eq, Marks.span?_append_left (same.trans noted)]
    exact arranges_all choice all apart

/-! ### Matches of a rule -/

section

variable {r : Rule} {c : Compiled} {text : Bytes} {found : Program.Found}

theorem Sound.passes_search (sound : Sound r) (kind : r.kind ≠ .regex) (compiled : r.compile = .ok c)
    (mem : found ∈ c.search.findAll text) :
    ∃ place ∈ (Cursor.start text).onward, r.expr.numbered.passes place found.stop found.marks := by
  rw [Regex.findAll, (sound.lead_none kind compiled).1, (sound.searches compiled).search] at mem
  obtain ⟨place, onward, matched⟩ := (Program.lists_findAll _ _ _).matchAt mem
  exact ⟨place, onward, Expr.reaches_iff.1 matched.path⟩

/-- What matches a whole text takes all of it, if it is found by its program. -/
theorem Searches.passes_whole (searches : Searches r c) (lead : c.whole.lead = none)
    (matched : c.whole.find? text = some found) :
    found.start = 0 ∧ found.finish = text.length ∧
      ∃ place ∈ (Cursor.start text).onward,
        r.expr.numbered.passes place found.stop found.marks := by
  rw [Regex.find?, lead, searches.whole] at matched
  obtain ⟨place, mem, here⟩ := Program.matchAt_of_find? matched
  obtain ⟨first, last, passage⟩ := passes_anchored.1 (Expr.reaches_iff.1 here.path)
  have stop := Cursor.offset_add_length
    (Cursor.onward_trans mem (Expr.reaches_iff.2 passage).mem_onward)
  rw [last, Bytes.ofScalars_nil] at stop
  refine ⟨?_, stop, place, mem, passage⟩
  rw [here.start, eq_start_of_before mem first]
  rfl

theorem Sound.passes_whole (sound : Sound r) (kind : r.kind ≠ .regex) (compiled : r.compile = .ok c)
    (matched : c.whole.find? text = some found) :
    found.start = 0 ∧ found.finish = text.length ∧
      ∃ place ∈ (Cursor.start text).onward,
        r.expr.numbered.passes place found.stop found.marks :=
  (sound.searches compiled).passes_whole (sound.lead_none kind compiled).2 matched

end

/-- What the kind of a rule says of the names of the entries that took part in a match. -/
def Shows (r : Rule) (names : List Bytes) : Prop :=
  match r with
  | combine _ how entries => how.Shows entries names
  | _ => names = []

/-- The kind of a rule fixes which of its entries take part in a match. -/
theorem Sound.shows_taken {r : Rule} (sound : Sound r) {c : Compiled} (compiled : r.compile = .ok c)
    {regex : Regex} (names : regex.names = r.expr.names) {found : Program.Found}
    (passage : r.kind ≠ .regex → ∃ place, r.expr.numbered.passes place found.stop found.marks) :
    r.Shows ((taken regex found r.entries).map (·.1.name)) ∧
      (taken regex found r.entries).Pairwise (·.2.2 ≤ ·.2.1) := by
  have searches := sound.searches compiled
  cases r with
  | regex tag source => exact ⟨rfl, .nil⟩
  | text tag literal => exact ⟨rfl, .nil⟩
  | combine tag how entries =>
    obtain ⟨place, passage⟩ := passage (by simp [kind])
    obtain ⟨shows, apart⟩ := sound.arranges_taken searches.read names searches.unique passage
    exact ⟨shows, apart⟩

end Rule

/-! ### Trees -/

namespace Tree

open Rule (Shows Matches)

mutual

/-- True of a tree of a rule with the children that the kind of the rule says, one after another, and
    with all that lies below it. -/
def Arranged (r : Rule) : Tree → Prop
  | node _ _ _ children =>
      r.Shows (children.map Tree.name) ∧ children.Pairwise (fun a b => a.finish ≤ b.offset) ∧
        ArrangedAll r.entries children

/-- True of trees each of which, as a tree of the named entry that it is called after, is arranged if
    the rule of the entry matches its text, and else has no children. -/
def ArrangedAll (entries : List (Entry Rule)) : List Tree → Prop
  | [] => True
  | t :: rest =>
      (∃ e ∈ entries, e.isNamed = true ∧ t.name = e.name ∧
        (e.rule.Matches t.text → Arranged e.rule t) ∧
        (¬ e.rule.Matches t.text → t.children = [])) ∧
        ArrangedAll entries rest

end

theorem arrangedAll_iff {entries : List (Entry Rule)} {trees : List Tree} :
    ArrangedAll entries trees ↔
      ∀ t ∈ trees, ∃ e ∈ entries, e.isNamed = true ∧ t.name = e.name ∧
        (e.rule.Matches t.text → Arranged e.rule t) ∧
        (¬ e.rule.Matches t.text → t.children = []) := by
  induction trees with
  | nil => simp [ArrangedAll]
  | cons t rest ih => simp [ArrangedAll, ih]

theorem arranged_iff {r : Rule} {t : Tree} :
    Arranged r t ↔ r.Shows (t.children.map Tree.name) ∧
      t.children.Pairwise (fun a b => a.finish ≤ b.offset) ∧ ArrangedAll r.entries t.children := by
  obtain ⟨name, span, offset, children⟩ := t
  rw [Arranged]
  rfl

end Tree

namespace Rule

/-- The tree for a span lies in the span. -/
theorem within_descend {r : Rule} {span : Bytes} {offset : Nat} {t : Tree}
    (h : r.matcher.descend span offset = .ok t) :
    (offset : Int) ≤ t.offset ∧ t.finish ≤ (offset + span.length : Nat) := by
  obtain ⟨c, compiled, ⟨-, rfl⟩ | ⟨found, matched, node⟩⟩ := descend_ok h
  · exact ⟨Int.le_refl _, Int.le_refl _⟩
  · have fits := Regex.find?_fits (compile_ok compiled).2 matched
    have length := Bytes.length_slice found.start fits.finish_le
    have := fits.start_le
    have := fits.finish_le
    rw [Tree.finish, node.offset_eq, node.text_eq, length]
    omega

theorem pairwise_of_forall₂ {α β : Type} {R : α → β → Prop} {S : α → α → Prop} {T : β → β → Prop}
    {as : List α} {bs : List β} (h : List.Forall₂ R as bs) (ordered : as.Pairwise S)
    (step : ∀ {a a' b b'}, R a b → R a' b' → S a a' → T b b') : bs.Pairwise T := by
  induction h with
  | nil => exact .nil
  | cons here others ih =>
    obtain ⟨first, ordered⟩ := List.pairwise_cons.1 ordered
    refine List.pairwise_cons.2 ⟨fun b mem => ?_, ih ordered⟩
    obtain ⟨a, mem, there⟩ := exists_of_forall₂ others mem
    exact step here there (first a mem)

/-- The children for spans that follow one another follow one another. -/
theorem pairwise_children {text : Bytes} {base : Nat} {parts : List (Entry Rule × Nat × Nat)}
    {children : List Tree} (h : List.Forall₂ (Child text base) parts children)
    (apart : parts.Pairwise (·.2.2 ≤ ·.2.1))
    (fits : ∀ part ∈ parts, part.2.1 ≤ part.2.2 ∧ part.2.2 ≤ text.length) :
    children.Pairwise fun a b => a.finish ≤ b.offset := by
  refine pairwise_of_forall₂ ((List.forall₂_and_left _ _).2 ⟨fits, h⟩) apart ?_
  rintro ⟨e, start, stop⟩ ⟨e', start', stop'⟩ t t' ⟨⟨le, fits⟩, inner, built, rfl⟩
    ⟨-, inner', built', rfl⟩ before
  have high := (within_descend built).2
  have low := (within_descend built').1
  rw [Bytes.length_slice start fits] at high
  rw [Tree.finish_rename, Tree.offset_rename]
  dsimp only at le before low high
  omega

/-- The tree for a match is arranged if those of the entries are. -/
theorem NodeOf.arranged {r : Rule} {regex : Regex} {found : Program.Found} {text : Bytes}
    {base : Nat} {t : Tree} (node : NodeOf r regex found text base t)
    (fits : found.Fits text.length)
    (arranged : r.Shows ((taken regex found r.entries).map (·.1.name)) ∧
      (taken regex found r.entries).Pairwise (·.2.2 ≤ ·.2.1))
    (below : ∀ e ∈ r.entries, ∀ {span offset t}, e.rule.matcher.descend span offset = .ok t →
      (e.rule.Matches t.text → t.Arranged e.rule) ∧ (¬ e.rule.Matches t.text → t.children = [])) :
    t.Arranged r := by
  refine Tree.arranged_iff.2 ⟨?_, ?_, Tree.arrangedAll_iff.2 fun child mem => ?_⟩
  · rw [map_name_children node.children]
    exact arranged.1
  · refine pairwise_children node.children arranged.2 fun part mem => ?_
    obtain ⟨number, -, group⟩ := Option.bind_eq_some_iff.1 (mem_taken mem).2.2
    obtain ⟨-, ordered, high⟩ := fits.group group
    exact ⟨ordered, Nat.le_trans high fits.finish_le⟩
  · obtain ⟨⟨e, start, stop⟩, mem, built⟩ := exists_of_forall₂ node.children mem
    obtain ⟨entry, isNamed, -⟩ := mem_taken mem
    have name := built.name_eq
    obtain ⟨inner, descended, rfl⟩ := built
    obtain ⟨whole, refused⟩ := below e entry descended
    refine ⟨e, entry, isNamed, name, ?_, ?_⟩
    · rw [Tree.text_rename, Tree.arranged_iff, Tree.children_rename, ← Tree.arranged_iff]
      exact whole
    · rw [Tree.text_rename, Tree.children_rename]
      exact refused

theorem Sound.arranged_descend {r : Rule} (sound : Sound r) : ∀ {span : Bytes} {offset : Nat}
    {t : Tree}, r.matcher.descend span offset = .ok t →
      (r.Matches t.text → t.Arranged r) ∧ (¬ r.Matches t.text → t.children = []) := by
  induction r using of_entries with
  | step r ih =>
  intro span offset t built
  obtain ⟨c, compiled, ⟨missed, rfl⟩ | ⟨found, matched, node⟩⟩ := descend_ok built
  · refine ⟨fun matches_ => ?_, fun _ => rfl⟩
    rw [matches_iff_occursIn compiled, Regex.occursIn] at matches_
    simp only [Tree.text, missed] at matches_
    cases matches_
  · have fits := Regex.find?_fits (compile_ok compiled).2 matched
    have passage := fun kind => sound.passes_whole kind compiled matched
    have arranged := sound.shows_taken compiled (sound.searches compiled).whole_names
      fun kind => (passage kind).2.2.imp fun _ h => h.2
    refine ⟨fun _ => node.arranged fits arranged fun e mem _ _ _ built' =>
      ih e mem (sound.entry (mem_reach mem)) built', fun refused => ?_⟩
    by_cases kind : r.kind = .regex
    · cases r with
      | regex tag source => exact List.forall₂_nil_left_iff.1 node.children
      | _ => cases kind
    · obtain ⟨start, finish, -⟩ := passage kind
      refine absurd ?_ refused
      rw [matches_iff_occursIn compiled, Regex.occursIn, node.text_eq, start, finish]
      simp [Bytes.slice, matched]

/-- The trees of a rule are arranged as the kinds of the rules say. -/
theorem Sound.arranged {r : Rule} (sound : Sound r) {text : Bytes} {t : Tree}
    (mem : t ∈ r.nodes text) : t.Arranged r := by
  obtain ⟨c, found, compiled, mem, node⟩ := nodeOf_of_mem mem
  have fits := Regex.findAll_fits (compile_ok compiled).1 mem
  have arranged := sound.shows_taken compiled (sound.searches compiled).names
    fun kind => (sound.passes_search kind compiled mem).imp fun _ h => h.2
  exact node.arranged fits arranged fun e mem _ _ _ built =>
    (sound.entry (mem_reach mem)).arranged_descend built

end Rule

end Rulebook

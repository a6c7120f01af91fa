import Mathlib.Data.List.Forall2
import Rulebook.Proofs.Pattern.Spans
import Rulebook.Proofs.Tree.OfMatch

/-!
# Parts of trees

What a tree is made of: a match of the rule, and for each named entry whose group took part, in the
order of the entries, the tree of the entry's rule for the span that the group took.
-/

namespace Rulebook

namespace Rule

/-! ### Children -/

/-- What is in the second of two related lists is related to something in the first. -/
theorem exists_of_forall₂ {α β : Type} {R : α → β → Prop} {as : List α} {bs : List β}
    (h : List.Forall₂ R as bs) {b : β} (mem : b ∈ bs) : ∃ a ∈ as, R a b := by
  induction h with
  | nil => cases mem
  | cons here _ ih =>
    obtain rfl | mem := List.mem_cons.1 mem
    · exact ⟨_, List.mem_cons_self .., here⟩
    · obtain ⟨a, later, related⟩ := ih mem
      exact ⟨a, List.mem_cons_of_mem _ later, related⟩

theorem exists_right_of_forall₂ {α β : Type} {R : α → β → Prop} {as : List α} {bs : List β}
    (h : List.Forall₂ R as bs) {a : α} (mem : a ∈ as) : ∃ b ∈ bs, R a b := by
  induction h with
  | nil => cases mem
  | cons here _ ih =>
    obtain rfl | mem := List.mem_cons.1 mem
    · exact ⟨_, List.mem_cons_self .., here⟩
    · obtain ⟨b, later, related⟩ := ih mem
      exact ⟨b, List.mem_cons_of_mem _ later, related⟩

/-- The named entries whose groups took part in a match, with the spans that the groups took. -/
def taken (regex : Pattern.Regex) (found : Pattern.Program.Found) (entries : List (Entry Rule)) :
    List (Entry Rule × Nat × Nat) :=
  entries.filterMap fun e =>
    if e.isNamed then (Matcher.spanOf? regex found e.name).map (e, ·) else none

/-- True of the child for an entry and the span that its group took, in a text that starts at
    `base`. -/
def Child (text : Bytes) (base : Nat) (part : Entry Rule × Nat × Nat) (t : Tree) : Prop :=
  ∃ inner, part.1.rule.matcher.descend (text.slice part.2.1 part.2.2) (base + part.2.1) = .ok inner ∧
    t = inner.rename part.1.name

theorem mem_taken {regex : Pattern.Regex} {found : Pattern.Program.Found}
    {entries : List (Entry Rule)} {part : Entry Rule × Nat × Nat}
    (mem : part ∈ taken regex found entries) :
    part.1 ∈ entries ∧ part.1.isNamed = true ∧
      Matcher.spanOf? regex found part.1.name = some part.2 := by
  obtain ⟨e, here, eq⟩ := List.mem_filterMap.1 mem
  split at eq
  · obtain ⟨span, took, rfl⟩ := Option.map_eq_some_iff.1 eq
    exact ⟨here, ‹_›, took⟩
  · cases eq

/-- The entries whose groups took part, in order. -/
theorem taken_sublist (regex : Pattern.Regex) (found : Pattern.Program.Found)
    (entries : List (Entry Rule)) :
    ((taken regex found entries).map Prod.fst).Sublist (entries.filter Entry.isNamed) := by
  induction entries with
  | nil => exact .slnil
  | cons e rest ih =>
    simp only [taken, List.filterMap_cons, List.filter_cons] at ih ⊢
    by_cases isNamed : e.isNamed = true
    · simp only [isNamed, if_true]
      cases Matcher.spanOf? regex found e.name with
      | none => exact .cons _ ih
      | some span => exact .cons_cons _ ih
    · simp only [isNamed]
      exact ih

/-- The children of a match are the trees of the entries that took part. -/
theorem children_of_partsFor {regex : Pattern.Regex} {found : Pattern.Program.Found} {text : Bytes}
    {base : Nat} {entries : List (Entry Rule)} {children : List Tree}
    (h : Matcher.partsFor regex found text base (matchers entries) = .ok children) :
    List.Forall₂ (Child text base) (taken regex found entries) children := by
  induction entries generalizing children with
  | nil =>
    cases h
    exact .nil
  | cons e rest ih =>
    rw [matchers] at h
    by_cases isNamed : e.isNamed = true
    · rw [if_pos isNamed, Matcher.partsFor] at h
      dsimp only at h
      have here : taken regex found (e :: rest) =
          ((Matcher.spanOf? regex found e.name).map (e, ·)).toList ++ taken regex found rest := by
        simp only [taken, List.filterMap_cons, isNamed, if_true]
        cases Matcher.spanOf? regex found e.name <;> rfl
      rw [here]
      split at h
      · rename_i none
        rw [none]
        exact ih h
      · rename_i start stop some_
        rw [some_]
        split at h
        · cases h
        · rename_i part built
          split at h
          · cases h
          · rename_i parts others
            cases h
            exact .cons ⟨part, built, rfl⟩ (ih others)
    · rw [if_neg isNamed] at h
      have skip : taken regex found (e :: rest) = taken regex found rest := by
        simp only [taken, List.filterMap_cons, isNamed]
        rfl
      rw [skip]
      exact ih h

theorem Child.name_eq {text : Bytes} {base : Nat} {part : Entry Rule × Nat × Nat} {t : Tree}
    (h : Child text base part t) : t.name = part.1.name := by
  obtain ⟨inner, -, rfl⟩ := h
  cases inner
  rfl

/-- Children are called after the entries. -/
theorem map_name_children {text : Bytes} {base : Nat} {parts : List (Entry Rule × Nat × Nat)}
    {children : List Tree} (h : List.Forall₂ (Child text base) parts children) :
    children.map Tree.name = parts.map (·.1.name) := by
  induction h with
  | nil => rfl
  | cons here _ ih => rw [List.map_cons, List.map_cons, here.name_eq, ih]

/-! ### Nodes -/

/-- True of the tree for a match of a rule by one of its patterns, in a text that starts at
    `base`. -/
structure NodeOf (r : Rule) (regex : Pattern.Regex) (found : Pattern.Program.Found) (text : Bytes)
    (base : Nat) (t : Tree) : Prop where
  name_eq : t.name = []
  text_eq : t.text = text.slice found.start found.finish
  offset_eq : t.offset = (base + found.start : Nat)
  children : List.Forall₂ (Child text base) (taken regex found r.entries) t.children

theorem NodeOf.of_nodeFor {r : Rule} {regex : Pattern.Regex} {found : Pattern.Program.Found}
    {text : Bytes} {base : Nat} {t : Tree}
    (h : Matcher.nodeFor (fun regex found => Matcher.partsFor regex found text base
      (matchers r.entries)) regex text base found = .ok t) : NodeOf r regex found text base t := by
  unfold Matcher.nodeFor at h
  split at h
  · cases h
  · cases h
    exact ⟨rfl, rfl, rfl, children_of_partsFor ‹_›⟩

/-- A child is the tree for a match of the whole span, or a node without children if there is no
    such match. -/
theorem descend_ok {r : Rule} {span : Bytes} {offset : Nat} {t : Tree}
    (h : r.matcher.descend span offset = .ok t) :
    ∃ c, r.compile = .ok c ∧
      ((c.whole.find? span = none ∧ t = .node [] span offset []) ∨
        ∃ found, c.whole.find? span = some found ∧ NodeOf r c.whole found span offset t) := by
  rw [descend_eq] at h
  unfold Matcher.spanNode at h
  split at h
  · cases h
  · rename_i c compiled
    refine ⟨c, compiled, ?_⟩
    split at h
    · cases h
      exact .inl ⟨‹_›, rfl⟩
    · exact .inr ⟨_, ‹_›, .of_nodeFor h⟩

/-- The trees of some matches, up to the first error: each is the tree for its match. -/
theorem forall₂_treesFor (r : Rule) (regex : Pattern.Regex) (text : Bytes)
    (founds : List Pattern.Program.Found) :
    ∃ front, front <+: founds ∧ List.Forall₂ (fun found t => NodeOf r regex found text 0 t) front
      ((r.matcher.treesFor regex text founds).filterMap Except.toOption) := by
  induction founds with
  | nil => exact ⟨[], List.prefix_rfl, .nil⟩
  | cons found rest ih =>
    rw [Matcher.treesFor]
    split
    · exact ⟨[], List.nil_prefix, .nil⟩
    · rename_i tree built
      obtain ⟨front, part, built'⟩ := ih
      rw [entries_matcher] at built
      exact ⟨found :: front, List.cons_prefix_cons.2 ⟨rfl, part⟩, .cons (.of_nodeFor built) built'⟩

/-- The trees that a rule yields for a text, as long as there is no error. -/
def nodes (r : Rule) (text : Bytes) : List Tree := (r.trees text).filterMap Except.toOption

/-- The trees of a rule are the trees for its first matches. -/
theorem forall₂_nodes {r : Rule} {c : Compiled} (compiled : r.compile = .ok c) (text : Bytes) :
    ∃ front, front <+: c.search.findAll text ∧
      List.Forall₂ (fun found t => NodeOf r c.search found text 0 t) front (r.nodes text) := by
  unfold nodes
  rw [trees, Matcher.trees, compiled_matcher, compiled]
  exact forall₂_treesFor r c.search text _

theorem nodes_of_error {r : Rule} {e : Error} (failed : r.compile = .error e) (text : Bytes) :
    r.nodes text = [] := by
  unfold nodes
  rw [trees, Matcher.trees, compiled_matcher, failed]
  rfl

/-- Where a text is parsed without an error, its trees are all that the rule yields. -/
theorem nodes_of_parse {r : Rule} {text : Bytes} {ts : List Tree} (h : r.parse text = .ok ts) :
    r.nodes text = ts := by
  rw [parse] at h
  rw [nodes]
  generalize r.trees text = results at h ⊢
  induction results generalizing ts with
  | nil =>
    cases h
    rfl
  | cons result results ih =>
    rw [List.mapM_cons] at h
    cases result with
    | error e => cases h
    | ok t =>
      cases others : results.mapM (id : Except Error Tree → Except Error Tree) with
      | error e =>
        rw [others] at h
        cases h
      | ok rest =>
        rw [others] at h
        cases h
        rw [List.filterMap_cons_some (show Except.toOption (.ok t) = some t from rfl), ih others]

/-- A tree of a rule is the tree for one of its matches. -/
theorem nodeOf_of_mem {r : Rule} {text : Bytes} {t : Tree} (mem : t ∈ r.nodes text) :
    ∃ c found, r.compile = .ok c ∧ found ∈ c.search.findAll text ∧
      NodeOf r c.search found text 0 t := by
  cases compiled : r.compile with
  | error e =>
    rw [nodes_of_error compiled] at mem
    cases mem
  | ok c =>
    obtain ⟨front, part, built⟩ := forall₂_nodes compiled text
    obtain ⟨found, mem, node⟩ := exists_of_forall₂ built mem
    exact ⟨c, found, rfl, part.subset mem, node⟩

end Rule

end Rulebook

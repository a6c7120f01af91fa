import Rulebook.Proofs.Tree.OfMatch
import Rulebook.Proofs.Tree.Parts

/-!
# Trees without errors

If the matcher accepts a rule and the rules of all its named entries, at any depth, then the rule
yields a tree for each of its matches in every text (`Rule.Ready.forall₂_nodes`).
-/

namespace Rulebook

namespace Rule

/-- True of a rule that the matcher accepts together with the rules of its named entries, at any
    depth. -/
structure Ready (r : Rule) : Prop where
  sound : Sound r
  accepted : Accepted r
  below : ∀ e ∈ reach r.entries, e.isNamed = true → Accepted e.rule

variable {r : Rule}

theorem Ready.entry (ready : Ready r) {e : Entry Rule} (mem : e ∈ reach r.entries)
    (isNamed : e.isNamed = true) : Ready e.rule where
  sound := ready.sound.entry mem
  accepted := ready.below e mem isNamed
  below _ under := ready.below _ (reach_trans_rule r mem under)

theorem Ready.not_errorBelow (ready : Ready r) {e : Error} : ¬ ErrorBelow e r.entries := by
  rintro ⟨d, mem, isNamed, failed⟩
  obtain ⟨c, compiled⟩ := ready.below d mem isNamed
  rw [compiled] at failed
  cases failed

/-- Every span has a tree. -/
theorem Ready.descend (ready : Ready r) (span : Bytes) (offset : Nat) :
    ∃ t, r.matcher.descend span offset = .ok t := by
  cases built : r.matcher.descend span offset with
  | ok t => exact ⟨t, rfl⟩
  | error e =>
    obtain failed | below := descend_error r built
    · obtain ⟨c, compiled⟩ := ready.accepted
      rw [compiled] at failed
      cases failed
    · exact absurd below ready.not_errorBelow

/-- There are no errors among the trees of a text. -/
theorem Ready.trees_eq (ready : Ready r) (text : Bytes) :
    r.trees text = (r.nodes text).map .ok := by
  have fine : ∀ result ∈ r.trees text, ∃ t, result = .ok t := by
    intro result mem
    cases result with
    | ok t => exact ⟨t, rfl⟩
    | error e => exact absurd (trees_error ready.accepted mem) ready.not_errorBelow
  rw [nodes]
  generalize r.trees text = results at fine ⊢
  induction results with
  | nil => rfl
  | cons result rest ih =>
    obtain ⟨⟨t, rfl⟩, others⟩ := List.forall_mem_cons.1 fine
    rw [List.filterMap_cons_some (show Except.toOption (.ok t) = some t from rfl), List.map_cons,
      ← ih others]

/-- A rule that is ready parses every text. -/
theorem Ready.parse_eq (ready : Ready r) (text : Bytes) : r.parse text = .ok (r.nodes text) := by
  have whole : (r.nodes text).mapM (pure : Tree → Except Error Tree) = pure (r.nodes text) := by
    rw [List.mapM_pure, List.map_id']
  rw [parse, ready.trees_eq, List.mapM_map]
  exact whole

theorem Ready.forall₂_treesFor (ready : Ready r) (regex : Pattern.Regex) (text : Bytes)
    (founds : List Pattern.Program.Found) :
    List.Forall₂ (fun found t => NodeOf r regex found text 0 t) founds
      ((r.matcher.treesFor regex text founds).filterMap Except.toOption) := by
  induction founds with
  | nil => exact .nil
  | cons found rest ih =>
    rw [Matcher.treesFor, entries_matcher]
    cases built : Matcher.nodeFor (fun x y => Matcher.partsFor x y text 0 (matchers r.entries))
        regex text 0 found with
    | error e => exact absurd (partsFor_error _ (nodeFor_error built)) ready.not_errorBelow
    | ok t => exact .cons (.of_nodeFor built) ih

/-- Every match of a rule has its tree. -/
theorem Ready.forall₂_nodes (ready : Ready r) {c : Compiled} (compiled : r.compile = .ok c)
    (text : Bytes) :
    List.Forall₂ (fun found t => NodeOf r c.search found text 0 t) (c.search.findAll text)
      (r.nodes text) := by
  rw [nodes, trees, Matcher.trees, compiled_matcher, compiled]
  exact ready.forall₂_treesFor c.search text _

end Rule

end Rulebook

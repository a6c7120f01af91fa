import Rulebook.Ebnf

/-!
# Verifying a grammar

Every rule of a grammar should be reachable from its start. Rules that a grammar was only given to
build on need not be, unless another rule refers to them.
-/

namespace Rulebook

/-- Which names each name refers to. -/
abbrev References := List (Bytes × List Bytes)

namespace References

/-- The names that are kept already or that a name which is kept refers to. -/
def grow (graph : References) (keep : List Bytes) : List Bytes :=
  (graph.map Prod.fst).filter fun name =>
    keep.contains name || graph.any fun (kept, refs) => keep.contains kept && refs.contains name

/-- Grows a list of names, at most a number of times, until it grows no more. -/
def growUntil (graph : References) : Nat → List Bytes → List Bytes
  | 0, keep => keep
  | n + 1, keep =>
      let keep' := grow graph keep
      if keep'.length ≤ keep.length then keep' else growUntil graph n keep'

/-- The names that can be reached from some names by references. -/
def closure (graph : References) (start : List Bytes) : List Bytes :=
  growUntil graph graph.length (grow graph start)

/-- The names that a name refers to, in order. -/
def targets (graph : References) (name : Bytes) : List Bytes :=
  graph.flatMap fun edge => if edge.1 == name then edge.2 else []

/-- What is kept while references are followed, and the names among it whose references are yet to
    be followed. -/
structure Search where
  keep : List Bytes
  queue : List Bytes

namespace Search

/-- Keeps a name and puts it last in the queue, unless it is kept already. -/
def add (s : Search) (name : Bytes) : Search :=
  if s.keep.contains name then s else ⟨s.keep ++ [name], s.queue ++ [name]⟩

/-- Follows the references of a name. -/
def visit (graph : References) (s : Search) (name : Bytes) : Search :=
  (graph.targets name).foldl add s

/-- How many names can still be put in the queue, or are in it. -/
def cost (graph : References) (s : Search) : Nat :=
  ((graph.flatMap Prod.snd).filter (!s.keep.contains ·)).length + s.queue.length

theorem cost_add_le {graph : References} {s : Search} {name : Bytes}
    (mem : name ∈ graph.flatMap Prod.snd) : (s.add name).cost graph ≤ s.cost graph := by
  unfold add
  by_cases kept : s.keep.contains name = true
  · exact Nat.le_of_eq (congrArg (cost graph) (if_pos kept))
  · rw [if_neg kept]
    have fewer : (graph.flatMap Prod.snd).filter (!(s.keep ++ [name]).contains ·) =
        ((graph.flatMap Prod.snd).filter (!s.keep.contains ·)).filter (· != name) := by
      rw [List.filter_filter]
      apply List.filter_congr
      intro n _
      rw [List.contains_eq_mem, List.contains_eq_mem]
      by_cases same : n = name <;> simp [same]
    have one : (((graph.flatMap Prod.snd).filter (!s.keep.contains ·)).filter (· != name)).length <
        ((graph.flatMap Prod.snd).filter (!s.keep.contains ·)).length := by
      apply List.length_filter_lt_length_iff_exists.2
      exact ⟨name, List.mem_filter.2 ⟨mem, by simpa using kept⟩, by simp⟩
    unfold cost
    rw [fewer, List.length_append, List.length_singleton]
    omega

theorem cost_visit_le (graph : References) (s : Search) (name : Bytes) :
    (s.visit graph name).cost graph ≤ s.cost graph := by
  unfold visit
  have known : ∀ n ∈ graph.targets name, n ∈ graph.flatMap Prod.snd := by
    intro n mem
    rcases List.mem_flatMap.1 mem with ⟨edge, here, target⟩
    refine List.mem_flatMap.2 ⟨edge, here, ?_⟩
    split at target
    · exact target
    · cases target
  generalize graph.targets name = refs at known
  induction refs generalizing s with
  | nil => exact Nat.le_refl _
  | cons n refs ih =>
    rcases List.forall_mem_cons.1 known with ⟨here, others⟩
    exact Nat.le_trans (ih (s.add n) others) (cost_add_le here)

end Search

/-- Follows the references of the names in a queue, one name after another, and returns all names
    that are kept in the end. -/
def follow (graph : References) : Search → List Bytes
  | ⟨keep, []⟩ => keep
  | ⟨keep, name :: queue⟩ => follow graph (Search.visit graph ⟨keep, queue⟩ name)
termination_by s => s.cost graph
decreasing_by
  have := Search.cost_visit_le graph ⟨keep, queue⟩ name
  simp only [Search.cost, List.length_cons] at this ⊢
  omega

end References

/-- What is wrong with a grammar. -/
inductive Complaint where
  /-- There is no production with the name of the start. -/
  | noStart (start : Bytes)
  /-- The production on a line cannot be reached from the start. -/
  | unreachable (line : Nat) (name : Bytes)
  deriving DecidableEq, Repr

namespace Complaint

/-- Productions are checked under names with a label before them, which makes all names of one
    case. -/
def label (name : Bytes) : Bytes := "r_" ++ name

/-- Takes the label off every name in a message. -/
def unlabel (inWord : Bool) : Bytes → Bytes
  | [] => []
  | 114 :: 95 :: c :: rest =>
      if !inWord && Bytes.isWord c then c :: unlabel true rest
      else 114 :: unlabel true (95 :: c :: rest)
  | b :: rest => b :: unlabel (Bytes.isWord b) rest

/-- The complaint in words, with labelled names. -/
def labelled : Complaint → Bytes
  | noStart start => "<input>: no start production " ++ label start
  | unreachable line name =>
      "<input>:" ++ Bytes.decimal line ++ ":1: " ++ label name ++ " is unreachable"

/-- The complaint in words. -/
def message (c : Complaint) : Bytes := unlabel false c.labelled

/-- Several complaints in words: the first, and how many more there are. -/
def summary : List Complaint → Bytes
  | [] => "no errors"
  | [c] => c.message
  | c :: rest =>
      unlabel false (c.labelled ++ " (and " ++ Bytes.decimal rest.length ++ " more errors)")

end Complaint

namespace Registry

/-- Which names the production of each rule refers to. -/
def references (r : Registry) : References :=
  r.productions.map fun p => (p.name, p.rule.references)

/-- The names that are verified: all that are not in `base`, the start, and what they refer to. -/
def verified (r : Registry) (start : Bytes) (base : List Bytes) : List Bytes :=
  let roots := r.names.filter fun name => name == start || !base.contains name
  let keep := r.references.follow ⟨roots, roots⟩
  r.names.filter keep.contains

/-- What is wrong with the grammar of a registry. -/
def complaints (r : Registry) (start : Bytes) (base : List Bytes) : List Complaint :=
  let names := r.verified start base
  if names.contains start then
    let reached := r.references.closure [start]
    (names.zipIdx 1).filterMap fun (name, line) =>
      if reached.contains name then none else some (.unreachable line name)
  else [.noStart start]

end Registry

end Rulebook

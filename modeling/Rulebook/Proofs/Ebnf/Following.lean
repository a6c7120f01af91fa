import Rulebook.Proofs.Ebnf.Closure

/-!
# Following references from a queue

A name is kept when it is first met, and waits in a queue until its own references are followed. So
whatever is kept can be reached from the names that were kept at first, and a name that has left the
queue refers to kept names only (`References.Search.Follows`). Following one name preserves both, and
where the queue is empty, just the names that can be reached are kept (`References.mem_follow`).
-/

namespace Rulebook

namespace References

variable {graph : References}

theorem mem_targets {a b : Bytes} : b ∈ graph.targets a ↔ graph.Refers a b := by
  rw [targets, List.mem_flatMap]
  constructor
  · rintro ⟨⟨name, refs⟩, edge, mem⟩
    by_cases same : name = a
    · subst same
      exact ⟨refs, edge, by simpa using mem⟩
    · simp [same] at mem
  · rintro ⟨refs, edge, mem⟩
    exact ⟨(a, refs), edge, by simpa using mem⟩

namespace Search

variable {s : Search} {name n : Bytes}

/-! ## What one name changes -/

theorem mem_keep_add : n ∈ (s.add name).keep ↔ n ∈ s.keep ∨ n = name := by
  rw [add]
  by_cases kept : name ∈ s.keep
  · rw [if_pos (List.contains_iff_mem.2 kept)]
    constructor
    · exact .inl
    · rintro (before | rfl)
      · exact before
      · exact kept
  · rw [if_neg (by simpa using kept), List.mem_append, List.mem_singleton]

theorem mem_queue_add : n ∈ (s.add name).queue ↔ n ∈ s.queue ∨ n = name ∧ n ∉ s.keep := by
  rw [add]
  by_cases kept : name ∈ s.keep
  · rw [if_pos (List.contains_iff_mem.2 kept)]
    constructor
    · exact .inl
    · rintro (before | ⟨rfl, new⟩)
      · exact before
      · exact absurd kept new
  · rw [if_neg (by simpa using kept), List.mem_append, List.mem_singleton]
    refine or_congr_right ⟨?_, And.left⟩
    rintro rfl
    exact ⟨rfl, kept⟩

theorem mem_keep_addAll (names : List Bytes) :
    n ∈ (names.foldl add s).keep ↔ n ∈ s.keep ∨ n ∈ names := by
  induction names generalizing s with
  | nil => simp
  | cons name names ih => rw [List.foldl_cons, ih, mem_keep_add, List.mem_cons, or_assoc]

theorem mem_queue_addAll (names : List Bytes) :
    n ∈ (names.foldl add s).queue ↔ n ∈ s.queue ∨ n ∈ names ∧ n ∉ s.keep := by
  induction names generalizing s with
  | nil => simp
  | cons name names ih =>
    rw [List.foldl_cons, ih, mem_queue_add, mem_keep_add, List.mem_cons]
    by_cases same : n = name <;> by_cases kept : n ∈ s.keep <;> simp [same, kept]

theorem mem_keep_visit : n ∈ (s.visit graph name).keep ↔ n ∈ s.keep ∨ graph.Refers name n := by
  rw [visit, mem_keep_addAll, mem_targets]

theorem mem_queue_visit :
    n ∈ (s.visit graph name).queue ↔ n ∈ s.queue ∨ graph.Refers name n ∧ n ∉ s.keep := by
  rw [visit, mem_queue_addAll, mem_targets]

/-! ## What every name preserves -/

/-- True of a search from some seeds that is under way. -/
structure Follows (graph : References) (seeds : List Bytes) (s : Search) : Prop where
  started : ∀ n ∈ seeds, n ∈ s.keep
  reached : ∀ n ∈ s.keep, ∃ k ∈ seeds, Relation.ReflTransGen graph.Refers k n
  queued : ∀ n ∈ s.queue, n ∈ s.keep
  followed : ∀ n ∈ s.keep, n ∉ s.queue → ∀ m, graph.Refers n m → m ∈ s.keep

theorem follows_seeds (seeds : List Bytes) : Follows graph seeds ⟨seeds, seeds⟩ where
  started _ mem := mem
  reached n mem := ⟨n, mem, .refl⟩
  queued _ mem := mem
  followed _ mem left := absurd mem left

/-- Following the references of the first name of the queue keeps the search sound. -/
theorem Follows.visit {seeds keep queue : List Bytes}
    (h : Follows graph seeds ⟨keep, name :: queue⟩) :
    Follows graph seeds (Search.visit graph ⟨keep, queue⟩ name) := by
  have here : name ∈ keep := h.queued name (List.mem_cons_self ..)
  constructor
  · intro n mem
    exact mem_keep_visit.2 (.inl (h.started n mem))
  · intro n mem
    rcases mem_keep_visit.1 mem with kept | refers
    · exact h.reached n kept
    · rcases h.reached name here with ⟨k, seed, path⟩
      exact ⟨k, seed, path.tail refers⟩
  · intro n mem
    rcases mem_queue_visit.1 mem with waiting | ⟨refers, -⟩
    · exact mem_keep_visit.2 (.inl (h.queued n (List.mem_cons_of_mem _ waiting)))
    · exact mem_keep_visit.2 (.inr refers)
  · intro n mem left m refers
    have out : n ∉ queue := fun waiting => left (mem_queue_visit.2 (.inl waiting))
    have kept : n ∈ keep := by
      rcases mem_keep_visit.1 mem with kept | new
      · exact kept
      · by_contra absent
        exact left (mem_queue_visit.2 (.inr ⟨new, absent⟩))
    by_cases same : n = name
    · subst same
      exact mem_keep_visit.2 (.inr refers)
    · have still : n ∉ name :: queue := List.not_mem_cons_of_ne_of_not_mem same out
      exact mem_keep_visit.2 (.inl (h.followed n kept still m refers))

end Search

/-! ## A whole search -/

/-- At the end of a search nothing waits, and what is kept is what the search has kept sound. -/
theorem follows_follow {seeds : List Bytes} (s : Search) (h : s.Follows graph seeds) :
    Search.Follows graph seeds ⟨graph.follow s, []⟩ := by
  induction s using follow.induct graph with
  | case1 keep =>
    rw [follow]
    exact h
  | case2 keep name queue ih =>
    rw [follow]
    exact ih h.visit

/-- The names that are kept in the end are those that can be reached. -/
theorem mem_follow {seeds : List Bytes} {n : Bytes} :
    n ∈ graph.follow ⟨seeds, seeds⟩ ↔ ∃ k ∈ seeds, Relation.ReflTransGen graph.Refers k n := by
  have done : Search.Follows graph seeds ⟨graph.follow ⟨seeds, seeds⟩, []⟩ :=
    follows_follow _ (Search.follows_seeds seeds)
  constructor
  · exact done.reached n
  · rintro ⟨k, seed, path⟩
    induction path with
    | refl => exact done.started k seed
    | @tail a b _ refers ih => exact done.followed a ih (List.not_mem_nil) b refers

end References

end Rulebook

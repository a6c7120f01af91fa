import Mathlib.Data.List.Basic
import Mathlib.Logic.Relation
import Rulebook.Ebnf.Verify

/-!
# What can be reached by references

The names that are kept grow until they grow no more, and a bound on the rounds is never what ends
this: every round but the last adds a name. So a name is in the closure if and only if it can be
reached (`References.mem_closure`).
-/

namespace Rulebook

namespace References

/-- True if the production of a name refers to another name. -/
def Refers (graph : References) (a b : Bytes) : Prop := ∃ refs, (a, refs) ∈ graph ∧ b ∈ refs

variable {graph : References}

theorem mem_grow {keep : List Bytes} {n : Bytes} :
    n ∈ grow graph keep ↔
      n ∈ graph.map Prod.fst ∧ (n ∈ keep ∨ ∃ k ∈ keep, graph.Refers k n) := by
  rw [grow, List.mem_filter]
  refine and_congr_right fun _ => ?_
  simp only [Bool.or_eq_true, List.contains_iff_mem, List.any_eq_true, Bool.and_eq_true,
    Refers]
  refine or_congr_right ⟨?_, ?_⟩
  · rintro ⟨⟨k, refs⟩, edge, kept, mem⟩
    exact ⟨k, kept, refs, edge, mem⟩
  · rintro ⟨k, kept, refs, edge, mem⟩
    exact ⟨⟨k, refs⟩, edge, kept, mem⟩

theorem filter_sublist_filter {α : Type} {p q : α → Bool} {l : List α}
    (h : ∀ a ∈ l, p a = true → q a = true) : (l.filter p).Sublist (l.filter q) := by
  have same : l.filter p = (l.filter q).filter p := by
    rw [List.filter_filter]
    refine List.filter_congr fun a mem => ?_
    cases holds : p a with
    | false => simp
    | true => simp [h a mem holds]
  rw [same]
  exact List.filter_sublist

/-- Growing what has grown keeps it. -/
theorem grow_sublist (keep : List Bytes) :
    (grow graph keep).Sublist (grow graph (grow graph keep)) := by
  conv_lhs => rw [grow]
  conv_rhs => rw [grow]
  refine filter_sublist_filter fun n mem kept => ?_
  have : n ∈ grow graph keep := List.mem_filter.2 ⟨mem, kept⟩
  simp [this]

theorem length_grow_le (keep : List Bytes) : (grow graph keep).length ≤ graph.length := by
  exact Nat.le_trans (List.length_filter_le ..) (Nat.le_of_eq (List.length_map ..))

/-- Where growing ends, there is nothing to add. -/
theorem grow_growUntil {rounds : Nat} {keep : List Bytes}
    (rising : keep.Sublist (grow graph keep)) (enough : graph.length ≤ rounds + keep.length) :
    grow graph (growUntil graph rounds keep) = growUntil graph rounds keep ∧
      ∀ n ∈ keep, n ∈ growUntil graph rounds keep := by
  induction rounds generalizing keep with
  | zero =>
    have bound := @length_grow_le graph keep
    exact ⟨(rising.eq_of_length_le (by omega)).symm, fun n mem => mem⟩
  | succ rounds ih =>
    rw [growUntil]
    split
    · rename_i still
      rw [← rising.eq_of_length_le still]
      exact ⟨(rising.eq_of_length_le still).symm, fun n mem => mem⟩
    · obtain ⟨closed, kept⟩ := ih (grow_sublist keep) (by omega)
      exact ⟨closed, fun n mem => kept n (rising.subset mem)⟩

theorem reached_of_mem_growUntil {rounds : Nat} {keep : List Bytes} {n : Bytes}
    (mem : n ∈ growUntil graph rounds keep) :
    ∃ k ∈ keep, Relation.ReflTransGen graph.Refers k n := by
  induction rounds generalizing keep with
  | zero => exact ⟨n, mem, .refl⟩
  | succ rounds ih =>
    rw [growUntil] at mem
    have grown : ∃ m ∈ grow graph keep, Relation.ReflTransGen graph.Refers m n := by
      split at mem
      · exact ⟨n, mem, .refl⟩
      · exact ih mem
    obtain ⟨m, grown, path⟩ := grown
    obtain ⟨-, kept | ⟨k, kept, refers⟩⟩ := mem_grow.1 grown
    · exact ⟨m, kept, path⟩
    · exact ⟨k, kept, .head refers path⟩

/-- The closure is what can be reached. -/
theorem mem_closure {start : List Bytes} {n : Bytes} :
    n ∈ graph.closure start ↔
      n ∈ graph.map Prod.fst ∧ ∃ s ∈ start, Relation.ReflTransGen graph.Refers s n := by
  obtain ⟨closed, kept⟩ := @grow_growUntil graph graph.length _ (grow_sublist start)
    (Nat.le_add_right ..)
  rw [closure]
  constructor
  · intro mem
    refine ⟨(mem_grow.1 (closed ▸ mem)).1, ?_⟩
    obtain ⟨m, grown, path⟩ := reached_of_mem_growUntil mem
    obtain ⟨-, started | ⟨s, started, refers⟩⟩ := mem_grow.1 grown
    · exact ⟨m, started, path⟩
    · exact ⟨s, started, .head refers path⟩
  · rintro ⟨registered, s, started, path⟩
    induction path with
    | refl => exact kept s (mem_grow.2 ⟨registered, .inl started⟩)
    | @tail m n path edge ih =>
      obtain ⟨refs, here, mem⟩ := edge
      have before := ih (List.mem_map_of_mem here)
      rw [← closed]
      exact mem_grow.2 ⟨registered, .inr ⟨m, before, refs, here, mem⟩⟩

end References

end Rulebook

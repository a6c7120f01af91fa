import Mathlib.Data.List.Basic
import Mathlib.Tactic.Tauto
import Rulebook.Text.CaseFold

/-!
# Members of sets

What a list of ranges covers is in the set of the list (`CharSet.contains_ofRanges`), and so is what
two sets hold in their union. A character is in its own class of case folding.
-/

namespace Rulebook

namespace CharSet

theorem contains_iff {s : CharSet} {code : Nat} :
    s.contains code = true ↔ ∃ range ∈ s.ranges, range.1 ≤ code ∧ code ≤ range.2 := by
  simp [contains]

theorem contains_single {code other : Nat} : (single code).contains other = true ↔ other = code := by
  simp [single, contains]
  omega

theorem mem_place {range other : Nat × Nat} {ranges : List (Nat × Nat)} :
    other ∈ place range ranges ↔ other = range ∨ other ∈ ranges := by
  induction ranges with
  | nil => simp [place]
  | cons next rest ih =>
    rw [place]
    split
    · simp only [List.mem_cons, ih]
      tauto
    · exact List.mem_cons

theorem pairwise_place {range : Nat × Nat} {ranges : List (Nat × Nat)}
    (sorted : ranges.Pairwise (·.1 ≤ ·.1)) : (place range ranges).Pairwise (·.1 ≤ ·.1) := by
  induction ranges with
  | nil => exact List.pairwise_singleton _ _
  | cons next rest ih =>
    obtain ⟨first, sorted⟩ := List.pairwise_cons.1 sorted
    rw [place]
    split
    · rename_i before
      refine List.pairwise_cons.2 ⟨fun other mem => ?_, ih sorted⟩
      obtain rfl | mem := mem_place.1 mem
      · exact Nat.le_of_lt before
      · exact first other mem
    · rename_i after
      refine List.pairwise_cons.2 ⟨fun other mem => ?_, List.pairwise_cons.2 ⟨first, sorted⟩⟩
      obtain rfl | mem := List.mem_cons.1 mem
      · omega
      · have := first other mem
        omega

/-- Ranges that are joined cover what they cover one by one. -/
theorem absorb_covers {first last : Nat} {ranges : List (Nat × Nat)}
    (sorted : ((first, last) :: ranges).Pairwise (·.1 ≤ ·.1)) {range : Nat × Nat}
    (mem : range ∈ (first, last) :: ranges) {code : Nat} (low : range.1 ≤ code)
    (high : code ≤ range.2) :
    ∃ joined ∈ absorb first last ranges, joined.1 ≤ code ∧ code ≤ joined.2 := by
  induction ranges generalizing first last range with
  | nil =>
    cases List.mem_singleton.1 mem
    exact ⟨_, List.mem_singleton_self _, low, high⟩
  | cons next rest ih =>
    obtain ⟨a, b⟩ := next
    obtain ⟨before, sorted'⟩ := List.pairwise_cons.1 sorted
    have order : first ≤ a := before _ (List.mem_cons_self ..)
    rw [absorb]
    split
    · have sorted : ((first, max last b) :: rest).Pairwise (·.1 ≤ ·.1) :=
        List.pairwise_cons.2 ⟨fun other mem => before other (List.mem_cons_of_mem _ mem),
          (List.pairwise_cons.1 sorted').2⟩
      have joined (low : first ≤ code) (high : code ≤ max last b) :=
        ih sorted (List.mem_cons_self ..) low high
      obtain rfl | mem := List.mem_cons.1 mem
      · exact joined low (Nat.le_trans high (Nat.le_max_left ..))
      · obtain rfl | mem := List.mem_cons.1 mem
        · exact joined (Nat.le_trans order low) (Nat.le_trans high (Nat.le_max_right ..))
        · exact ih sorted (List.mem_cons_of_mem _ mem) low high
    · obtain rfl | mem := List.mem_cons.1 mem
      · exact ⟨_, List.mem_cons_self .., low, high⟩
      · obtain ⟨joined, mem, bounds⟩ := ih sorted' mem low high
        exact ⟨joined, List.mem_cons_of_mem _ mem, bounds⟩

theorem contains_ofRanges {ranges : List (Nat × Nat)} {range : Nat × Nat} (mem : range ∈ ranges)
    {code : Nat} (low : range.1 ≤ code) (high : code ≤ range.2) :
    (ofRanges ranges).contains code = true := by
  have sorted : (ranges.foldr place []).Pairwise (·.1 ≤ ·.1) := by
    clear mem
    induction ranges with
    | nil => exact .nil
    | cons next rest ih => exact pairwise_place ih
  have mem : range ∈ ranges.foldr place [] := by
    clear sorted
    induction ranges with
    | nil => exact mem
    | cons next rest ih => exact mem_place.2 ((List.mem_cons.1 mem).imp id ih)
  rw [contains_iff, ofRanges]
  cases placed : ranges.foldr place [] with
  | nil =>
    rw [placed] at mem
    cases mem
  | cons first rest =>
    rw [placed] at sorted mem
    exact absorb_covers sorted mem low high

theorem contains_union {s t : CharSet} {code : Nat}
    (h : s.contains code = true ∨ t.contains code = true) :
    (s.union t).contains code = true := by
  obtain ⟨range, mem, low, high⟩ | ⟨range, mem, low, high⟩ :=
    h.imp contains_iff.1 contains_iff.1
  · exact contains_ofRanges (List.mem_append_left _ mem) low high
  · exact contains_ofRanges (List.mem_append_right _ mem) low high

end CharSet

namespace CaseFold

/-- A class is in the table, or that of a single code point. -/
theorem orbit_cases (code : Nat) :
    orbit code = [code] ∨ (orbit code ∈ classes ∧ code ∈ orbit code) := by
  unfold orbit
  split
  · exact .inl rfl
  · cases found : classes.find? (·.contains code) with
    | none => exact .inl rfl
    | some chars =>
      exact .inr ⟨List.mem_of_find?_eq_some found, by simpa using List.find?_some found⟩

theorem mem_orbit (code : Nat) : code ∈ orbit code := by
  obtain alone | ⟨-, mem⟩ := orbit_cases code
  · rw [alone]
    exact List.mem_singleton_self _
  · exact mem

theorem contains_alike {code other : Nat} (h : other ∈ orbit code) :
    (alike true code).contains other = true :=
  CharSet.contains_ofRanges (List.mem_map_of_mem h) (Nat.le_refl _) (Nat.le_refl _)

theorem contains_alike_self (fold : Bool) (code : Nat) :
    (alike fold code).contains code = true := by
  cases fold with
  | false => simp [alike, CharSet.single, CharSet.contains]
  | true => exact contains_alike (mem_orbit code)

end CaseFold

end Rulebook

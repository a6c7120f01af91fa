import Rulebook.Proofs.Definition.Range
import Rulebook.Proofs.Text.Lines

/-!
# Where a marker stands

The position of an offset that stands between two characters of a source can be told from the source
alone: `Position.place`. A marker that stands at such an offset moves to any other one further on, and
is then where it would be had it come there from the start (`Marker.At.seek`).
-/

namespace Rulebook

open Bytes

/-! ### Offsets between characters -/

namespace Bytes

/-- True of an offset that stands between two characters of a source, or at one of its ends. A byte
    that is not UTF-8 is a character by itself. -/
def IsBoundary (source : Bytes) (o : Nat) : Prop :=
  ∃ front back, source.scalars = front ++ back ∧ (ofScalars front).length = o

variable {source s t : Bytes} {a b : Nat}

theorem isBoundary_zero (source : Bytes) : source.IsBoundary 0 := ⟨[], source.scalars, rfl, rfl⟩

/-- An offset between two characters cuts the characters of the source in two. -/
theorem isBoundary_iff :
    source.IsBoundary a ↔ a ≤ source.length ∧
      source.scalars = scalars (source.take a) ++ scalars (source.drop a) := by
  constructor
  · rintro ⟨front, back, eq, rfl⟩
    have legible : Legible (front ++ back) := eq ▸ legible_scalars source
    have bytes : source = ofScalars front ++ ofScalars back := by
      rw [← ofScalars_append, ← eq, ofScalars_scalars]
    have taken : source.take (ofScalars front).length = ofScalars front := by
      conv_lhs => rw [bytes]
      exact List.take_left
    have dropped : source.drop (ofScalars front).length = ofScalars back := by
      conv_lhs => rw [bytes]
      exact List.drop_left
    constructor
    · rw [bytes, List.length_append]
      exact Nat.le_add_right ..
    · rw [taken, dropped, legible_of_append_left legible, legible_of_append_right legible, eq]
  · rintro ⟨fits, eq⟩
    refine ⟨_, _, eq, ?_⟩
    rw [ofScalars_scalars, List.length_take_of_le fits]

theorem IsBoundary.le (h : source.IsBoundary a) : a ≤ source.length := (isBoundary_iff.1 h).1

theorem isBoundary_length (source : Bytes) : source.IsBoundary source.length :=
  isBoundary_iff.2 ⟨Nat.le_refl _, by simp⟩

theorem eq_nil_of_ofScalars {l : List Scalar} (wide : ∀ c ∈ l, c ∈ source.scalars)
    (none : (ofScalars l).length = 0) : l = [] := by
  cases l with
  | nil => rfl
  | cons c rest =>
    have some_byte := Pattern.wide_scalars source c (wide c (List.mem_cons_self ..))
    rw [ofScalars_cons, List.length_append] at none
    rw [Scalar.width] at some_byte
    omega

/-- Such an offset stands between two characters of what comes before another one too. -/
theorem IsBoundary.take (ha : source.IsBoundary a) (hb : source.IsBoundary b) (low : a ≤ b) :
    IsBoundary (source.take b) a := by
  obtain ⟨front, back, eq, rfl⟩ := ha
  obtain ⟨front', back', eq', rfl⟩ := hb
  have legible : Legible (front' ++ back') := eq' ▸ legible_scalars source
  have taken : source.take (ofScalars front').length = ofScalars front' := by
    conv_lhs => rw [← ofScalars_scalars source, eq', ofScalars_append]
    exact List.take_left
  -- of two beginnings of one list the one with fewer bytes is the shorter one
  rcases List.prefix_or_prefix_of_prefix ⟨back, eq.symm⟩ ⟨back', eq'.symm⟩ with shorter | longer
  · obtain ⟨between, rfl⟩ := shorter
    exact ⟨front, between, by rw [taken, legible_of_append_left legible], rfl⟩
  · obtain ⟨more, rfl⟩ := longer
    rw [ofScalars_append, List.length_append] at low
    have gone : more = [] := by
      have wide : ∀ c ∈ more, c ∈ source.scalars := by
        intro c mem
        rw [eq]
        exact List.mem_append_left _ (List.mem_append_right _ mem)
      exact eq_nil_of_ofScalars wide (by omega)
    rw [gone, List.append_nil]
    exact ⟨front', [], by rw [taken, legible_of_append_left legible, List.append_nil], rfl⟩

/-- What stands between two such offsets has the characters of the source that are there. -/
theorem IsBoundary.scalars_take (ha : source.IsBoundary a) (hb : source.IsBoundary b) (low : a ≤ b) :
    scalars (source.take b) = scalars (source.take a) ++ scalars (source.slice a b) := by
  rw [(isBoundary_iff.1 (ha.take hb low)).2, List.take_take, Nat.min_eq_left low, List.drop_take, slice]

/-- An offset is between two characters of a source if it is so in what follows such an offset. -/
theorem IsBoundary.add (ha : source.IsBoundary a) (hb : IsBoundary (source.drop a) b) :
    source.IsBoundary (a + b) := by
  obtain ⟨front, back, eq, length⟩ := hb
  obtain ⟨fits, cut⟩ := isBoundary_iff.1 ha
  refine ⟨scalars (source.take a) ++ front, back, ?_, ?_⟩
  · rw [cut, eq, List.append_assoc]
  · rw [ofScalars_append, List.length_append, ofScalars_scalars, List.length_take_of_le fits, length]

theorem IsBoundary.of_append (h : s.IsBoundary a) (cut : scalars (s ++ t) = s.scalars ++ t.scalars) :
    IsBoundary (s ++ t) a := by
  obtain ⟨front, back, eq, length⟩ := h
  exact ⟨front, back ++ t.scalars, by rw [cut, eq, List.append_assoc], length⟩

/-- Such an offset of what stands between two such offsets is one of the source. -/
theorem IsBoundary.of_slice {k : Nat} (ha : source.IsBoundary a) (hb : source.IsBoundary b)
    (low : a ≤ b) (hk : IsBoundary (source.slice a b) k) : source.IsBoundary (a + k) := by
  have whole : source.slice a b ++ source.drop b = source.drop a := by
    conv_rhs => rw [← List.take_append_drop (b - a) (source.drop a), List.drop_drop,
      Nat.add_sub_cancel' low]
    rfl
  have cut : scalars (source.drop a) = scalars (source.slice a b) ++ scalars (source.drop b) := by
    have all := (isBoundary_iff.1 hb).2
    rw [ha.scalars_take hb low, (isBoundary_iff.1 ha).2, List.append_assoc] at all
    exact List.append_cancel_left all
  rw [← whole] at cut
  exact ha.add (whole ▸ hk.of_append cut)

end Bytes

namespace Position

/-- The position of an offset of a source, counted from the start. -/
def place (filename source : Bytes) (o : Nat) : Position :=
  ⟨filename, o, 1 + (source.take o).count 10, 1 + (lastLine (source.take o)).scalars.length⟩

theorem advance_start_take (filename : Bytes) {source : Bytes} {o : Nat} (fits : o ≤ source.length) :
    (start filename).advance (source.take o) = place filename source o := by
  simp [advance, start, place, List.length_take_of_le fits]

/-- The position after two texts is the one after the second, seen from the first, if no character
    lies across the cut. -/
theorem advance_advance (p : Position) {s t : Bytes}
    (cut : scalars (s ++ t) = s.scalars ++ t.scalars) :
    (p.advance s).advance t = p.advance (s ++ t) := by
  by_cases broken : 10 ∈ t
  · obtain ⟨front, rest, rfl⟩ := List.append_of_mem broken
    have last (u : Bytes) : lastLine (u ++ (front ++ 10 :: rest)) = lastLine rest := by
      have line := lastLine_line (u ++ front) rest
      simpa using line
    have last_t : lastLine (front ++ 10 :: rest) = lastLine rest := last []
    simp only [advance, last, last_t, List.count_append, List.count_cons_self, List.length_append,
      Position.mk.injEq, true_and]
    refine ⟨by omega, by omega, ?_⟩
    rw [if_neg (by simp), if_neg (by simp)]
  · obtain ⟨front, eq, ended⟩ := exists_lastLine s
    have column : scalars (lastLine s ++ t) = (lastLine s).scalars ++ t.scalars := by
      have whole := cut
      rw [eq, List.append_assoc, ended.scalars_append, ended.scalars_append, List.append_assoc] at whole
      exact List.append_cancel_left whole
    simp only [advance, lastLine_append broken, lastLine_whole broken, column, List.length_append,
      List.count_append, List.count_eq_zero.2 broken, Position.mk.injEq, true_and]
    refine ⟨by omega, by omega, ?_⟩
    simp only [beq_self_eq_true, if_true, Nat.add_zero, Int.natCast_add]
    omega

/-- From the position of an offset to that of another one further on. -/
theorem place_advance (filename : Bytes) {source : Bytes} {a b : Nat} (ha : source.IsBoundary a)
    (hb : source.IsBoundary b) (low : a ≤ b) :
    (place filename source a).advance (source.slice a b) = place filename source b := by
  have whole : source.take a ++ source.slice a b = source.take b := by
    rw [slice, ← List.take_add, Nat.add_sub_cancel' low]
  rw [← advance_start_take filename ha.le, advance_advance, whole, advance_start_take filename hb.le]
  rw [whole, ha.scalars_take hb low]

end Position

/-! ### Markers -/

namespace Marker

/-- True of a marker that stands at an offset between two characters of a source. -/
structure At (m : Marker) (filename source : Bytes) (o : Nat) : Prop where
  boundary : source.IsBoundary o
  position : m.position = .place filename source o
  rest : m.rest = source.drop o

variable {m : Marker} {filename source : Bytes} {a b o : Nat}

theorem at_start (filename source : Bytes) : (start filename source).At filename source 0 :=
  ⟨isBoundary_zero source, rfl, rfl⟩

/-- Where a marker stands is all that there is to it. -/
theorem At.eq {m' : Marker} (h : m.At filename source o) (h' : m'.At filename source o) : m' = m := by
  cases m
  cases m'
  obtain ⟨-, rfl, rfl⟩ := h
  obtain ⟨-, rfl, rfl⟩ := h'
  rfl

theorem At.offset (h : m.At filename source o) : m.position.offset = o := by
  rw [h.position, Position.place]

theorem At.over (h : m.At filename source o) : m.Over source :=
  ⟨o, h.offset, h.boundary.le, h.rest⟩

/-- A marker that moves on to another such offset stands there. -/
theorem At.forward (h : m.At filename source a) (hb : source.IsBoundary b) (low : a ≤ b) :
    (m.forward (b - a)).At filename source b := by
  refine ⟨hb, ?_, ?_⟩
  · rw [Marker.forward, h.rest, h.position]
    exact Position.place_advance filename h.boundary hb low
  · rw [Marker.forward, h.rest, List.drop_drop, Nat.add_sub_cancel' low]

theorem At.distance (h : m.At filename source a) (hb : source.IsBoundary b) (low : a ≤ b) :
    m.distance b = .ok (b - a) := by
  have fits := hb.le
  refine h.over.distance_eq_ok.2 ?_
  rw [h.offset]
  omega

theorem At.seek (h : m.At filename source a) (hb : source.IsBoundary b) (low : a ≤ b) :
    ∃ m', m.seek b = .ok m' ∧ m'.At filename source b :=
  ⟨_, by rw [Marker.seek, h.distance hb low], h.forward hb low⟩

end Marker

end Rulebook

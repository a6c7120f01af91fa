import Rulebook.Proofs.Pattern.Finding

/-!
# Passages

What an expression takes of a text, read off its form: `Expr.passes` relates a place to the places
that the expression leads to, together with what its groups note on the way. The paths through the
program of an expression are its passages (`Expr.reaches_iff`), so that a search finds the leftmost
one, and finds nothing only if there is none.
-/

namespace Rulebook

namespace Pattern

/-- A relation between a place, a place further on, and what is noted between them. -/
abbrev Passage := Cursor → Cursor → Marks → Prop

namespace Passage

/-- Taking nothing. -/
def stay : Passage := fun c d m => d = c ∧ m = []

/-- One passage after another. -/
def andThen (a b : Passage) : Passage := fun c e m =>
  ∃ d m₁ m₂, a c d m₁ ∧ b d e m₂ ∧ m = m₂ ++ m₁

/-- A passage `n` times. -/
def power (a : Passage) : Nat → Passage
  | 0 => stay
  | n + 1 => a.andThen (a.power n)

/-- One of two passages. -/
def orElse (a b : Passage) : Passage := fun c d m => a c d m ∨ b c d m

/-- A passage as often as a condition allows. -/
def often (a : Passage) (allowed : Nat → Prop) : Passage := fun c d m =>
  ∃ n, allowed n ∧ a.power n c d m

@[simp] theorem stay_andThen (a : Passage) : stay.andThen a = a := by
  funext c d m
  simp [andThen, stay]

@[simp] theorem andThen_stay (a : Passage) : a.andThen stay = a := by
  funext c d m
  simp [andThen, stay]

theorem andThen_assoc (a b c : Passage) : (a.andThen b).andThen c = a.andThen (b.andThen c) := by
  funext s t m
  apply propext
  constructor
  · rintro ⟨v, _, m₃, ⟨u, m₁, m₂, ha, hb, rfl⟩, hc, rfl⟩
    exact ⟨u, m₁, m₃ ++ m₂, ha, ⟨v, m₂, m₃, hb, hc, rfl⟩, by simp⟩
  · rintro ⟨u, m₁, _, ha, ⟨v, m₂, m₃, hb, hc, rfl⟩, rfl⟩
    exact ⟨v, m₂ ++ m₁, m₃, ⟨u, m₁, m₂, ha, hb, rfl⟩, hc, by simp⟩

theorem power_add (a : Passage) (n k : Nat) : a.power (n + k) = (a.power n).andThen (a.power k) := by
  induction n with
  | zero => simp [power]
  | succ n ih => rw [Nat.succ_add, power, power, ih, andThen_assoc]

theorem power_one (a : Passage) : a.power 1 = a := andThen_stay a

/-- Repeating a passage in two stages. -/
theorem often_andThen (a : Passage) {p q r : Nat → Prop}
    (h : ∀ n, r n ↔ ∃ i j, p i ∧ q j ∧ n = i + j) :
    (a.often p).andThen (a.often q) = a.often r := by
  funext c e m
  apply propext
  constructor
  · rintro ⟨d, m₁, m₂, ⟨i, hi, first⟩, ⟨j, hj, second⟩, rfl⟩
    refine ⟨i + j, (h _).2 ⟨i, j, hi, hj, rfl⟩, ?_⟩
    rw [power_add]
    exact ⟨d, m₁, m₂, first, second, rfl⟩
  · rintro ⟨n, allowed, all⟩
    obtain ⟨i, j, hi, hj, rfl⟩ := (h n).1 allowed
    rw [power_add] at all
    obtain ⟨d, m₁, m₂, first, second, rfl⟩ := all
    exact ⟨d, m₁, m₂, ⟨i, hi, first⟩, ⟨j, hj, second⟩, rfl⟩

theorem often_orElse (a : Passage) {p q r : Nat → Prop} (h : ∀ n, r n ↔ p n ∨ q n) :
    (a.often p).orElse (a.often q) = a.often r := by
  funext c d m
  apply propext
  constructor
  · rintro (⟨n, allowed, here⟩ | ⟨n, allowed, here⟩)
    · exact ⟨n, (h n).2 (.inl allowed), here⟩
    · exact ⟨n, (h n).2 (.inr allowed), here⟩
  · rintro ⟨n, allowed, here⟩
    exact ((h n).1 allowed).imp (⟨n, ·, here⟩) (⟨n, ·, here⟩)

theorem often_eq (a : Passage) (n : Nat) : a.often (· = n) = a.power n := by
  funext c d m
  simp [often]

theorem stay_eq_often (a : Passage) : stay = a.often (· = 0) := (often_eq a 0).symm

/-! ### Passages of programs -/

/-- The paths through some steps. -/
def ofSteps (k : List Step) : Passage := fun c d m => ∃ n, Path n k c d m

theorem ofSteps_nil : ofSteps [] = stay := by
  funext c d m
  apply propext
  constructor
  · rintro ⟨n, path⟩
    exact path.of_nil
  · rintro ⟨rfl, rfl⟩
    exact ⟨0, .done⟩

theorem ofSteps_append (a b : List Step) : ofSteps (a ++ b) = (ofSteps a).andThen (ofSteps b) := by
  funext c e m
  apply propext
  constructor
  · rintro ⟨n, path⟩
    obtain ⟨n₁, n₂, d, m₁, m₂, -, first, second, rfl⟩ := path.split
    exact ⟨d, m₁, m₂, ⟨n₁, first⟩, ⟨n₂, second⟩, rfl⟩
  · rintro ⟨d, m₁, m₂, ⟨n₁, first⟩, ⟨n₂, second⟩, rfl⟩
    exact ⟨n₁ + n₂, first.append second⟩

theorem ofSteps_choice {k first second : List Step} {label : Nat}
    (choice : Step.choice? k = some (label, first, second)) :
    ofSteps k = (ofSteps first).orElse (ofSteps second) := by
  funext c d m
  apply propext
  constructor
  · rintro ⟨n, path⟩
    obtain ⟨n', -, here | there⟩ := path.of_choice choice
    · exact .inl ⟨n', here⟩
    · exact .inr ⟨n', there⟩
  · rintro (⟨n, here⟩ | ⟨n, there⟩)
    · exact ⟨n + 1, .first choice here⟩
    · exact ⟨n + 1, .second choice there⟩

theorem orElse_comm (a b : Passage) : a.orElse b = b.orElse a := by
  funext c d m
  exact propext or_comm

theorem ofSteps_prefer (label : Nat) (greedy : Bool) (a b : List Step) :
    ofSteps [.prefer label greedy a b] = (ofSteps a).orElse (ofSteps b) := by
  cases greedy with
  | true =>
    rw [ofSteps_choice (k := [.prefer label true a b]) (by rfl), List.append_nil, List.append_nil]
  | false =>
    rw [ofSteps_choice (k := [.prefer label false a b]) (by rfl), List.append_nil, List.append_nil,
      orElse_comm]

/-- A loop goes on with its body once more, or not at all. -/
theorem ofSteps_loop_unfold (label : Nat) (greedy : Bool) (a : List Step) :
    ofSteps [.loop label greedy a] =
      ((ofSteps a).andThen (ofSteps [.loop label greedy a])).orElse stay := by
  cases greedy with
  | true =>
    rw [← ofSteps_append, ← ofSteps_nil]
    exact ofSteps_choice rfl
  | false =>
    rw [orElse_comm, ← ofSteps_append, ← ofSteps_nil]
    exact ofSteps_choice rfl

/-- A loop takes its body any number of times. One direction is by induction on the length of the
    path, the other by induction on the number of rounds. -/
theorem ofSteps_loop (label : Nat) (greedy : Bool) (a : List Step) :
    ofSteps [.loop label greedy a] = (ofSteps a).often fun _ => True := by
  funext c d m
  apply propext
  constructor
  · rintro ⟨n, path⟩
    induction n using Nat.strongRecOn generalizing c m with
    | ind n ih =>
    have choice : ∃ n' < n, Path n' (a ++ [Step.loop label greedy a]) c d m ∨ Path n' [] c d m := by
      cases greedy with
      | true => exact path.of_choice rfl
      | false =>
        obtain ⟨n', lt, here | there⟩ := path.of_choice rfl
        · exact ⟨n', lt, .inr here⟩
        · exact ⟨n', lt, .inl there⟩
    obtain ⟨n', lt, again | leave⟩ := choice
    · obtain ⟨n₁, n₂, e, m₁, m₂, sum, first, second, rfl⟩ := again.split
      obtain ⟨k, -, rounds⟩ := ih n₂ (by omega) e m₂ second
      exact ⟨k + 1, trivial, e, m₁, m₂, ⟨n₁, first⟩, rounds, rfl⟩
    · exact ⟨0, trivial, leave.of_nil⟩
  · rintro ⟨n, -, rounds⟩
    induction n generalizing c m with
    | zero =>
      rw [ofSteps_loop_unfold]
      exact .inr rounds
    | succ n ih =>
      obtain ⟨e, m₁, m₂, first, others, rfl⟩ := rounds
      rw [ofSteps_loop_unfold]
      exact .inl ⟨e, m₁, m₂, first, ih e m₂ others, rfl⟩

end Passage

namespace Builder

open Passage

/-- True of a builder all of whose programs have the same passages. -/
def Takes (b : Builder) (p : Passage) : Prop := ∀ label, ofSteps (b label).1 = p

variable {a b : Builder} {p q : Passage}

theorem takes_nil : nil.Takes stay := fun _ => ofSteps_nil

theorem Takes.append (ha : a.Takes p) (hb : b.Takes q) : (append a b).Takes (p.andThen q) := by
  intro label
  simp only [Builder.append]
  rw [ofSteps_append, ha, hb]

theorem Takes.choice (ha : a.Takes p) (hb : b.Takes q) : (choice a b).Takes (p.orElse q) := by
  intro label
  rw [← ha label, ← hb (a label).2]
  exact (ofSteps_choice (k := (Builder.choice a b label).1) (by rfl)).trans (by simp)

theorem Takes.opt (ha : a.Takes p) (greedy : Bool) : (opt greedy a).Takes (p.orElse stay) := by
  intro label
  rw [← ha label, ← ofSteps_nil]
  exact ofSteps_prefer ..

theorem Takes.plus (ha : a.Takes p) (greedy : Bool) : (plus greedy a).Takes (p.often (1 ≤ ·)) := by
  intro label
  simp only [Builder.plus]
  rw [ofSteps_append, ofSteps_loop, ha]
  nth_rewrite 1 [← power_one p]
  rw [← often_eq]
  refine often_andThen p fun n => ⟨fun le => ⟨1, n - 1, rfl, trivial, by omega⟩, ?_⟩
  rintro ⟨i, j, rfl, -, rfl⟩
  omega

theorem Takes.star (ha : a.Takes p) (greedy nullable : Bool) :
    (star greedy nullable a).Takes (p.often fun _ => True) := by
  unfold Builder.star
  split
  · have whole := (ha.plus greedy).opt greedy
    rw [stay_eq_often p, often_orElse (r := fun _ => True)] at whole
    · exact whole
    · exact fun n => iff_of_true trivial (by omega)
  · intro label
    simp only
    rw [ofSteps_loop, ha]

theorem Takes.copies (ha : a.Takes p) (n : Nat) : (copies n a).Takes (p.power n) := by
  induction n with
  | zero => exact takes_nil
  | succ n ih => exact ha.append ih

theorem Takes.upTo (ha : a.Takes p) (greedy : Bool) (n : Nat) :
    (upTo greedy a n).Takes (p.often (· ≤ n)) := by
  induction n with
  | zero =>
    simp only [Nat.le_zero_eq]
    rw [← stay_eq_often]
    exact takes_nil
  | succ n ih =>
    have whole := (ha.append ih).opt greedy
    nth_rewrite 1 [← power_one p] at whole
    rw [← often_eq p 1, often_andThen p (r := fun k => 1 ≤ k ∧ k ≤ n + 1), stay_eq_often p,
      often_orElse (r := (· ≤ n + 1))] at whole
    · exact whole
    · intro k
      omega
    · intro k
      constructor
      · rintro ⟨low, high⟩
        exact ⟨1, k - 1, rfl, by omega, by omega⟩
      · rintro ⟨i, j, rfl, le, rfl⟩
        omega

/-- How often a repetition with counts may take its body. -/
def Allowed (low : Nat) (high : Option Nat) (n : Nat) : Prop :=
  low ≤ n ∧ ∀ limit, high = some limit → n ≤ max low limit

theorem Takes.times (ha : a.Takes p) (greedy nullable : Bool) (low : Nat) (high : Option Nat) :
    (times greedy nullable a low high).Takes (p.often (Allowed low high)) := by
  cases high with
  | none =>
    cases low with
    | zero =>
      have same : Allowed 0 none = fun _ => True := by
        funext n
        simp [Allowed]
      rw [same]
      exact ha.star greedy nullable
    | succ n =>
      have whole := (ha.copies n).append (ha.plus greedy)
      rw [← often_eq, often_andThen p (r := Allowed (n + 1) none)] at whole
      · exact whole
      · intro k
        simp only [Allowed, reduceCtorEq, false_implies, implies_true, and_true]
        constructor
        · intro le
          exact ⟨n, k - n, rfl, by omega, by omega⟩
        · rintro ⟨i, j, rfl, le, rfl⟩
          omega
  | some high =>
    have whole := (ha.copies low).append (ha.upTo greedy (high - low))
    rw [← often_eq, often_andThen p (r := Allowed low (some high))] at whole
    · exact whole
    · intro k
      simp only [Allowed, Option.some.injEq, forall_eq']
      constructor
      · rintro ⟨le, le'⟩
        exact ⟨low, k - low, rfl, by omega, by omega⟩
      · rintro ⟨i, j, rfl, le, rfl⟩
        omega

end Builder

namespace Expr

open Passage

/-- What an expression takes of a text. -/
def passes : Expr → Passage
  | empty => stay
  | one set => fun c d m =>
      ∃ s rest, c.rest = s :: rest ∧ set.contains s.code = true ∧ d = c.past s rest ∧ m = []
  | test condition => fun c d m => c.holds condition = true ∧ d = c ∧ m = []
  | group index _ e => fun c d m =>
      ∃ inner, e.passes c d inner ∧
        m = (slot index + 1, d.offset) :: (inner ++ [(slot index, c.offset)])
  | cat a b => a.passes.andThen b.passes
  | alt a b => a.passes.orElse b.passes
  | star _ e => e.passes.often fun _ => True
  | plus _ e => e.passes.often (1 ≤ ·)
  | opt _ e => e.passes.orElse stay
  | times min max _ e => e.passes.often (Builder.Allowed min max)

theorem ofSteps_one (set : CharSet) : ofSteps [.one set] = (one set).passes := by
  funext c d m
  apply propext
  constructor
  · rintro ⟨n, path⟩
    obtain ⟨s, rest, n', here, on, -, tail⟩ := path.of_one
    obtain ⟨rfl, rfl⟩ := tail.of_nil
    exact ⟨s, rest, here, on, rfl, rfl⟩
  · rintro ⟨s, rest, here, on, rfl, rfl⟩
    exact ⟨1, .one here on .done⟩

theorem ofSteps_test (condition : Assertion) :
    ofSteps [.test condition] = (test condition).passes := by
  funext c d m
  apply propext
  constructor
  · rintro ⟨n, path⟩
    obtain ⟨n', on, -, tail⟩ := path.of_test
    exact ⟨on, tail.of_nil⟩
  · rintro ⟨on, rfl, rfl⟩
    exact ⟨1, .test on .done⟩

theorem ofSteps_mark (slot : Nat) :
    ofSteps [.mark slot] = fun c d m => d = c ∧ m = [(slot, c.offset)] := by
  funext c d m
  apply propext
  constructor
  · rintro ⟨n, path⟩
    obtain ⟨n', m', -, rfl, tail⟩ := path.of_mark
    obtain ⟨rfl, rfl⟩ := tail.of_nil
    exact ⟨rfl, rfl⟩
  · rintro ⟨rfl, rfl⟩
    exact ⟨1, .mark .done⟩

theorem takes_group {a : Builder} {e : Expr} (h : a.Takes e.passes) (index : Nat) (name : Bytes) :
    (Builder.append (.step (.mark (slot index)))
      (.append a (.step (.mark (slot index + 1))))).Takes (group index name e).passes := by
  have mark (k : Nat) : (Builder.step (.mark k)).Takes
      (fun c d m => d = c ∧ m = [(k, c.offset)]) := fun _ => ofSteps_mark k
  have whole := (mark (slot index)).append (h.append (mark (slot index + 1)))
  have same : Passage.andThen (fun c d m => d = c ∧ m = [(slot index, c.offset)])
      (e.passes.andThen fun c d m => d = c ∧ m = [(slot index + 1, c.offset)]) =
        (group index name e).passes := by
    funext c d m
    simp [Passage.andThen, passes]
  rwa [same] at whole

/-- The paths through the program of an expression are its passages. -/
theorem takes_build (e : Expr) : e.build.Takes e.passes := by
  induction e with
  | empty => exact Builder.takes_nil
  | one set => exact fun _ => ofSteps_one set
  | test condition => exact fun _ => ofSteps_test condition
  | group index name e ih => exact takes_group ih index name
  | cat a b ha hb => exact ha.append hb
  | alt a b ha hb => exact ha.choice hb
  | star greedy e ih => exact ih.star greedy e.nullable
  | plus greedy e ih => exact ih.plus greedy
  | opt greedy e ih => exact ih.opt greedy
  | times min max greedy e ih => exact ih.times greedy e.nullable min max

theorem reaches_iff {e : Expr} {c d : Cursor} {m : Marks} :
    (Program.ofExpr e).Reaches c d m ↔ e.passes c d m :=
  iff_of_eq (congrFun (congrFun (congrFun (e.takes_build 0) c) d) m)

end Expr

end Pattern

end Rulebook

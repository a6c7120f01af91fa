import Rulebook.Proofs.Pattern.Search

/-!
# Labels of a program

The program of an expression gives each choice a label, and a label stands for one place of the
program only. Where a program holds the same steps twice, at the start of a repetition and in its
loop, the same program follows both.
-/

namespace Rulebook

namespace Pattern

/-- Steps whose labels lie in a range and stand for one program each, whatever follows. -/
structure Orderly (low high : Nat) (steps : List Step) : Prop where
  le : low ≤ high
  within : ∀ k, ∀ point ∈ Step.pointsOf steps k, low ≤ point.1 ∧ point.1 < high
  functional : ∀ k, Functional (Step.pointsOf steps k)

namespace Orderly

variable {low mid high : Nat} {a b : List Step}

theorem nil (low : Nat) : Orderly low low [] where
  le := Nat.le_refl _
  within := nofun
  functional := nofun

theorem single {step : Step} (plain : ∀ k, step.points k = []) (low : Nat) :
    Orderly low low [step] where
  le := Nat.le_refl _
  within k point mem := by simp [Step.pointsOf, plain] at mem
  functional k := by simp [Step.pointsOf, plain, Functional]

/-- Points of two kinds whose labels differ. -/
theorem functional_append {ps qs : List (Nat × List Step)} (hp : Functional ps) (hq : Functional qs)
    (apart : ∀ p ∈ ps, ∀ q ∈ qs, p.1 ≠ q.1) : Functional (ps ++ qs) := by
  intro label k k' mem mem'
  obtain mem | mem := List.mem_append.1 mem
  · obtain mem' | mem' := List.mem_append.1 mem'
    · exact hp label k k' mem mem'
    · exact (apart _ mem _ mem' rfl).elim
  · obtain mem' | mem' := List.mem_append.1 mem'
    · exact (apart _ mem' _ mem rfl).elim
    · exact hq label k k' mem mem'

theorem functional_cons {point : Nat × List Step} {ps : List (Nat × List Step)}
    (h : Functional ps) (apart : ∀ p ∈ ps, point.1 ≠ p.1) : Functional (point :: ps) := by
  refine @functional_append [point] ps ?_ h fun p mem q mem' => ?_
  · intro label k k' mem mem'
    cases List.mem_singleton.1 mem
    cases List.mem_singleton.1 mem'
    rfl
  · cases List.mem_singleton.1 mem
    exact apart q mem'

theorem append (ha : Orderly low mid a) (hb : Orderly mid high b) : Orderly low high (a ++ b) where
  le := Nat.le_trans ha.le hb.le
  within k point mem := by
    have := ha.le
    have := hb.le
    rw [Step.pointsOf_append, List.mem_append] at mem
    obtain mem | mem := mem
    · have := ha.within _ point mem
      omega
    · have := hb.within _ point mem
      omega
  functional k := by
    rw [Step.pointsOf_append]
    refine functional_append (ha.functional _) (hb.functional _) fun p mem q mem' => ?_
    have := ha.within _ p mem
    have := hb.within _ q mem'
    omega

theorem fork (ha : Orderly low mid a) (hb : Orderly mid high b) :
    Orderly low (high + 1) [.fork high a b] where
  le := Nat.le_trans (Nat.le_trans ha.le hb.le) (Nat.le_succ _)
  within k point mem := by
    have := ha.le
    have := hb.le
    simp only [Step.pointsOf, Step.points, List.append_nil, List.mem_cons, List.mem_append] at mem
    obtain rfl | mem | mem := mem
    · exact ⟨Nat.le_trans ha.le hb.le, Nat.lt_succ_self _⟩
    · have := ha.within _ point mem
      omega
    · have := hb.within _ point mem
      omega
  functional k := by
    have := hb.le
    simp only [Step.pointsOf, Step.points, List.append_nil]
    refine functional_cons (functional_append (ha.functional _) (hb.functional _) ?_) ?_
    · intro p mem q mem'
      have := ha.within _ p mem
      have := hb.within _ q mem'
      omega
    · intro p mem
      obtain mem | mem := List.mem_append.1 mem
      · have := ha.within _ p mem
        simp only
        omega
      · have := hb.within _ p mem
        simp only
        omega

theorem loop (greedy : Bool) (ha : Orderly low high a) :
    Orderly low (high + 1) [.loop high greedy a] where
  le := Nat.le_trans ha.le (Nat.le_succ _)
  within k point mem := by
    simp only [Step.pointsOf, Step.points, List.append_nil, List.mem_cons] at mem
    obtain rfl | mem := mem
    · exact ⟨ha.le, Nat.lt_succ_self _⟩
    · have := ha.within _ point mem
      omega
  functional k := by
    simp only [Step.pointsOf, Step.points, List.append_nil]
    refine functional_cons (ha.functional _) fun p mem => ?_
    have := ha.within _ p mem
    simp only
    omega

/-- The steps before a loop are those of its body, and the loop follows both. -/
theorem plus (greedy : Bool) (ha : Orderly low high a) :
    Orderly low (high + 1) (a ++ [Step.loop high greedy a]) := by
  have looped := ha.loop greedy
  have same (k : List Step) : ∀ point ∈ Step.pointsOf (a ++ [Step.loop high greedy a]) k,
      point ∈ Step.pointsOf [.loop high greedy a] k := by
    intro point mem
    rw [Step.pointsOf_append, List.mem_append] at mem
    obtain mem | mem := mem
    · simp only [Step.pointsOf, Step.points, List.append_nil, List.mem_cons]
      exact .inr mem
    · exact mem
  exact ⟨looped.le, fun k point mem => looped.within k point (same k point mem),
    fun k label p p' mem mem' => looped.functional k label p p' (same k _ mem) (same k _ mem')⟩

theorem prefer (greedy : Bool) (ha : Orderly low high a) :
    Orderly low (high + 1) [.prefer high greedy a []] := by
  cases greedy with
  | true => exact ha.fork (nil high)
  | false => exact (nil low).fork ha

end Orderly

/-! ### Builders -/

/-- True of a builder whose programs are orderly. -/
def Builder.Neat (b : Builder) : Prop := ∀ label, Orderly label (b label).2 (b label).1

namespace Builder

variable {a b : Builder}

theorem neat_nil : nil.Neat := fun label => .nil label

theorem neat_step {s : Step} (plain : ∀ k, s.points k = []) : (step s).Neat :=
  fun label => .single plain label

theorem neat_append (ha : a.Neat) (hb : b.Neat) : (append a b).Neat :=
  fun label => (ha label).append (hb (a label).2)

theorem neat_copies (ha : a.Neat) (n : Nat) : (copies n a).Neat := by
  induction n with
  | zero => exact neat_nil
  | succ n ih => exact neat_append ha ih

theorem neat_choice (ha : a.Neat) (hb : b.Neat) : (choice a b).Neat :=
  fun label => (ha label).fork (hb (a label).2)

theorem neat_opt (greedy : Bool) (ha : a.Neat) : (opt greedy a).Neat :=
  fun label => (ha label).prefer greedy

theorem neat_plus (greedy : Bool) (ha : a.Neat) : (plus greedy a).Neat :=
  fun label => (ha label).plus greedy

theorem neat_star (greedy nullable : Bool) (ha : a.Neat) : (star greedy nullable a).Neat := by
  unfold star
  split
  · exact neat_opt greedy (neat_plus greedy ha)
  · exact fun label => (ha label).loop greedy

theorem neat_upTo (greedy : Bool) (ha : a.Neat) (n : Nat) : (upTo greedy a n).Neat := by
  induction n with
  | zero => exact neat_nil
  | succ n ih => exact neat_opt greedy (neat_append ha ih)

theorem neat_times (greedy nullable : Bool) (ha : a.Neat) (min : Nat) (max : Option Nat) :
    (times greedy nullable a min max).Neat := by
  cases max with
  | none =>
    cases min with
    | zero => exact neat_star greedy nullable ha
    | succ n => exact neat_append (neat_copies ha n) (neat_plus greedy ha)
  | some max => exact neat_append (neat_copies ha min) (neat_upTo greedy ha (max - min))

end Builder

/-- The labels of the program of an expression stand for one place each. -/
theorem Expr.neat_build (e : Expr) : e.build.Neat := by
  induction e with
  | empty => exact Builder.neat_nil
  | one set => exact Builder.neat_step fun _ => rfl
  | test condition => exact Builder.neat_step fun _ => rfl
  | group index name e ih =>
    exact Builder.neat_append (Builder.neat_step fun _ => rfl)
      (Builder.neat_append ih (Builder.neat_step fun _ => rfl))
  | cat a b ha hb => exact Builder.neat_append ha hb
  | alt a b ha hb => exact Builder.neat_choice ha hb
  | star greedy e ih => exact Builder.neat_star greedy e.nullable ih
  | plus greedy e ih => exact Builder.neat_plus greedy ih
  | opt greedy e ih => exact Builder.neat_opt greedy ih
  | times min max greedy e ih => exact Builder.neat_times greedy e.nullable ih min max

/-- The program of an expression can be searched for in every text. -/
theorem Program.searchable (e : Expr) {start : Cursor} (wide : ∀ s ∈ start.rest, 0 < s.width) :
    Program.Searchable (Step.pointsOf (Program.ofExpr e).steps []) (Program.ofExpr e).labels start where
  functional := (e.neat_build 0).functional []
  bounded point mem := ((e.neat_build 0).within [] point mem).2
  wide := wide

end Pattern

end Rulebook

import Mathlib.Data.Set.Insert
import Rulebook.Proofs.Pattern.Finding
import Rulebook.Proofs.Pattern.Program
import Rulebook.Proofs.Pattern.Regrouping

/-!
# Running with a memory

What a search comes to depends on the choices that it has met on the way, here and at the places
before. `Runs` is such a run without marks and without a limit, and `Seeks` a search made of them;
`Program.run` and `Program.find?` are a run and a search of this kind (`Program.runs_run`,
`Program.seeks_find?`), which come to one thing only (`Seeks.unique`).

Neither the groups of an expression nor the numbers of its labels matter (`Runs.beside`): a run of a
program is a run of the program without marks and with other labels, next to whatever else the
memory holds. So two expressions that differ in their groups only have matches of the same extent
(`Program.extent_find?_eq`).
-/

namespace Rulebook

namespace Pattern

/-! ### Runs -/

namespace Step

/-- True of a step that chooses. -/
def isChoice : Step → Bool
  | fork _ _ _ => true
  | loop _ _ _ => true
  | _ => false

/-- The places to which a step that does not choose leads. -/
def onto : Step → Cursor → List Cursor
  | one set, c =>
      match c.rest with
      | [] => []
      | s :: rest => if set.contains s.code then [c.past s rest] else []
  | test condition, c => if c.holds condition then [c] else []
  | mark _, c => [c]
  | _, _ => []

theorem choice?_eq_none {step : Step} (plain : step.isChoice = false) (k : List Step) :
    choice? (step :: k) = none := by
  cases step <;> first | rfl | cases plain

end Step

/-- A way through a program: the steps that are left, and the place. -/
abbrev Way := List Step × Cursor

/-- Following ways in order with the memory of choices, each with its offset, until one comes to its
    end: the place where it ends, if there is one, and the memory afterwards. -/
inductive Runs : Set (Nat × Nat) → List Way → Option Cursor → Set (Nat × Nat) → Prop where
  | spent {met} : Runs met [] none met
  | done {met c ways} : Runs met (([], c) :: ways) (some c) met
  | move {met met' step k c ways r} : step.isChoice = false →
      Runs met ((step.onto c).map (Prod.mk k) ++ ways) r met' →
      Runs met ((step :: k, c) :: ways) r met'
  | known {met met' k label first second c ways r} : Step.choice? k = some (label, first, second) →
      (label, c.offset) ∈ met → Runs met ways r met' → Runs met ((k, c) :: ways) r met'
  | choice {met met' k label first second c ways r} : Step.choice? k = some (label, first, second) →
      (label, c.offset) ∉ met →
      Runs (insert (label, c.offset) met) ((first, c) :: (second, c) :: ways) r met' →
      Runs met ((k, c) :: ways) r met'

/-- A run comes to one thing only. -/
theorem Runs.unique {met met₁ met₂ : Set (Nat × Nat)} {ways : List Way} {r₁ r₂ : Option Cursor}
    (h : Runs met ways r₁ met₁) (h' : Runs met ways r₂ met₂) : r₁ = r₂ ∧ met₁ = met₂ := by
  induction h generalizing r₂ met₂ with
  | spent =>
    cases h'
    exact ⟨rfl, rfl⟩
  | done =>
    cases h' with
    | done => exact ⟨rfl, rfl⟩
    | known choice => cases choice
    | choice choice => cases choice
  | move plain _ ih =>
    cases h' with
    | move _ h' => exact ih h'
    | known choice => cases (Step.choice?_eq_none plain _).symm.trans choice
    | choice choice => cases (Step.choice?_eq_none plain _).symm.trans choice
  | known choice old _ ih =>
    cases h' with
    | done => cases choice
    | move plain => cases (Step.choice?_eq_none plain _).symm.trans choice
    | known _ _ h' => exact ih h'
    | choice choice' new =>
      cases choice.symm.trans choice'
      exact absurd old new
  | choice choice new _ ih =>
    cases h' with
    | done => cases choice
    | move plain => cases (Step.choice?_eq_none plain _).symm.trans choice
    | known choice' old =>
      cases choice.symm.trans choice'
      exact absurd old new
    | choice choice' _ h' =>
      cases choice.symm.trans choice'
      exact ih h'

/-- Searching for a program from a place on, with the memory of the places before: where the
    leftmost match starts, and the place where it ends. -/
inductive Seeks (k : List Step) : Set (Nat × Nat) → Cursor → Option (Nat × Cursor) → Prop where
  | here {met met' c d} : Runs met [(k, c)] (some d) met' → Seeks k met c (some (c.offset, d))
  | ended {met met' c} : Runs met [(k, c)] none met' → c.rest = [] → Seeks k met c none
  | later {met met' c s rest r} : Runs met [(k, c)] none met' → c.rest = s :: rest →
      Seeks k met' (c.past s rest) r → Seeks k met c r

theorem Seeks.unique {k : List Step} {met : Set (Nat × Nat)} {c : Cursor}
    {r r' : Option (Nat × Cursor)} (h : Seeks k met c r) (h' : Seeks k met c r') : r = r' := by
  induction h generalizing r' with
  | here run =>
    cases h' with
    | here run' => cases (run.unique run').1; rfl
    | ended run' => cases (run.unique run').1
    | later run' => cases (run.unique run').1
  | ended run last =>
    cases h' with
    | here run' => cases (run.unique run').1
    | ended => rfl
    | later _ more => cases last.symm.trans more
  | later run more _ ih =>
    cases h' with
    | here run' => cases (run.unique run').1
    | ended _ last => cases last.symm.trans more
    | later run' more' h' =>
      cases more.symm.trans more'
      cases (run.unique run').2
      exact ih h'

/-! ### What programs do -/

/-- A thread without what it has noted. -/
def Thread.way (t : Thread) : Way := (t.steps, t.place)

/-- Choices that have been met, as a set. -/
def Met.keys (met : Met) : Set (Nat × Nat) := {key | key ∈ met}

namespace Program

@[simp] theorem keys_insert (met : Met) (key : Nat × Nat) :
    Met.keys (met.insert key) = insert key met.keys := by
  ext other
  simp only [Met.keys, Set.mem_ofPred_eq, Set.mem_insert_iff, mem_insert]

variable {points : List (Nat × List Step)} {start : Cursor} {labels : Nat}

/-- Threads in a program and in a text. -/
def Placed (points : List (Nat × List Step)) (start : Cursor) (threads : List Thread) : Prop :=
  ∀ t ∈ threads, Inside points t.steps ∧ t.place ∈ start.onward

theorem placed_cons {t : Thread} {threads : List Thread} :
    Placed points start (t :: threads) ↔
      (Inside points t.steps ∧ t.place ∈ start.onward) ∧ Placed points start threads :=
  List.forall_mem_cons

/-- What `run` comes to, as a run and with choices that can be met. -/
structure Realises (labels : Nat) (start : Cursor) (met : Met) (threads : List Thread)
    (result : Option Thread × Met) : Prop where
  runs : Runs met.keys (threads.map Thread.way) (result.1.map Thread.place) result.2.keys
  possible : ∀ key ∈ result.2, Possible labels start key

section

variable {met : Met} {threads others : List Thread} {result : Option Thread × Met}

theorem Realises.move {step : Step} {k : List Step} {c : Cursor} {m : List (Nat × Nat)}
    (plain : step.isChoice = false)
    (ways : threads.map Thread.way = (step.onto c).map (Prod.mk k) ++ others.map Thread.way)
    (h : Realises labels start met threads result) :
    Realises labels start met (⟨step :: k, c, m⟩ :: others) result :=
  ⟨.move plain (ways ▸ h.runs), h.possible⟩

/-- A choice is left alone only if it has been met: there is room for all that can be met. -/
theorem Realises.known (searchable : Searchable points labels start)
    {k first second : List Step} {label : Nat} {c : Cursor} {m : List (Nat × Nat)}
    (choice : Step.choice? k = some (label, first, second))
    (left : (label, c.offset) ∈ met ∨ limit labels start ≤ met.size)
    (possible : ∀ key ∈ met, Possible labels start key)
    (inside : Inside points k) (place : c ∈ start.onward)
    (h : Realises labels start met others result) :
    Realises labels start met (⟨k, c, m⟩ :: others) result := by
  have old : (label, c.offset) ∈ met := by
    by_contra new
    have here : Possible labels start (label, c.offset) :=
      ⟨searchable.bounded _ (inside.choice choice).1, c, place, rfl⟩
    have room := size_lt_limit possible new here
    have full := left.resolve_left new
    omega
  exact ⟨.known choice old h.runs, h.possible⟩

theorem Realises.choice {k first second : List Step} {label : Nat} {c : Cursor}
    {m : List (Nat × Nat)} (choice : Step.choice? k = some (label, first, second))
    (new : ¬ ((label, c.offset) ∈ met ∨ limit labels start ≤ met.size))
    (h : Realises labels start (met.insert (label, c.offset))
      (⟨first, c, m⟩ :: ⟨second, c, m⟩ :: others) result) :
    Realises labels start met (⟨k, c, m⟩ :: others) result := by
  refine ⟨.choice choice (fun old => new (.inl old)) ?_, h.possible⟩
  rw [← keys_insert]
  exact h.runs

end

theorem possible_insert {met : Met} {k first second : List Step} {label : Nat} {c : Cursor}
    (searchable : Searchable points labels start)
    (possible : ∀ key ∈ met, Possible labels start key)
    (choice : Step.choice? k = some (label, first, second)) (inside : Inside points k)
    (place : c ∈ start.onward) :
    ∀ key ∈ met.insert (label, c.offset), Possible labels start key := by
  intro key mem
  obtain rfl | mem := mem_insert.1 mem
  · exact ⟨searchable.bounded _ (inside.choice choice).1, c, place, rfl⟩
  · exact possible key mem

theorem placed_choice {k first second : List Step} {label : Nat} {c : Cursor}
    {m m' : List (Nat × Nat)} {others : List Thread}
    (choice : Step.choice? k = some (label, first, second))
    (placed : Placed points start (⟨k, c, m⟩ :: others)) :
    Placed points start (⟨first, c, m'⟩ :: ⟨second, c, m'⟩ :: others) := by
  obtain ⟨⟨inside, place⟩, others⟩ := placed_cons.1 placed
  obtain ⟨-, left, right⟩ := inside.choice choice
  exact placed_cons.2 ⟨⟨left, place⟩, placed_cons.2 ⟨⟨right, place⟩, others⟩⟩

/-- Running a program is a run, as long as there is room for all choices that can be met. -/
theorem runs_run (searchable : Searchable points labels start) (met : Met) (threads : List Thread)
    (possible : ∀ key ∈ met, Possible labels start key) (placed : Placed points start threads) :
    Realises labels start met threads (run (limit labels start) met threads) := by
  fun_induction run (limit labels start) met threads with
  | case1 met => exact ⟨.spent, possible⟩
  | case2 met place marks others => exact ⟨.done, possible⟩
  | case3 met set steps place marks others last ih =>
    have later := ih possible (placed_cons.1 placed).2
    exact later.move rfl (by simp [Step.onto, last])
  | case4 met set steps place marks others s rest more holds ih =>
    obtain ⟨⟨inside, here⟩, others⟩ := placed_cons.1 placed
    have later := ih possible
      (placed_cons.2 ⟨⟨inside.tail, Cursor.past_mem_onward here more⟩, others⟩)
    exact later.move rfl (by simp [Step.onto, more, holds, Thread.way])
  | case5 met set steps place marks others s rest more off ih =>
    have later := ih possible (placed_cons.1 placed).2
    exact later.move rfl (by simp [Step.onto, more, off])
  | case6 met condition steps place marks others holds ih =>
    obtain ⟨⟨inside, here⟩, others⟩ := placed_cons.1 placed
    have later := ih possible (placed_cons.2 ⟨⟨inside.tail, here⟩, others⟩)
    exact later.move rfl (by simp [Step.onto, holds, Thread.way])
  | case7 met condition steps place marks others off ih =>
    have later := ih possible (placed_cons.1 placed).2
    exact later.move rfl (by simp [Step.onto, off])
  | case8 met slot steps place marks others ih =>
    obtain ⟨⟨inside, here⟩, others⟩ := placed_cons.1 placed
    have later := ih possible (placed_cons.2 ⟨⟨inside.tail, here⟩, others⟩)
    exact later.move rfl (by simp [Step.onto, Thread.way])
  | case9 met label first second steps place marks others left ih =>
    obtain ⟨⟨inside, here⟩, others⟩ := placed_cons.1 placed
    exact (ih possible others).known searchable rfl left possible inside here
  | case10 met label first second steps place marks others new ih =>
    obtain ⟨⟨inside, here⟩, -⟩ := placed_cons.1 placed
    have choice : Step.choice? (.fork label first second :: steps) =
      some (label, first ++ steps, second ++ steps) := rfl
    exact (ih (possible_insert searchable possible choice inside here)
      (placed_choice choice placed)).choice choice new
  | case11 met label greedy body steps place marks others left ih =>
    obtain ⟨⟨inside, here⟩, others⟩ := placed_cons.1 placed
    cases greedy with
    | true => exact (ih possible others).known searchable rfl left possible inside here
    | false => exact (ih possible others).known searchable rfl left possible inside here
  | case12 met label greedy body steps place marks others new again leave ih =>
    obtain ⟨⟨inside, here⟩, -⟩ := placed_cons.1 placed
    cases greedy with
    | true =>
      have choice : Step.choice? (.loop label true body :: steps) =
        some (label, body ++ Step.loop label true body :: steps, steps) := rfl
      exact (ih (possible_insert searchable possible choice inside here)
        (placed_choice choice placed)).choice choice new
    | false =>
      have choice : Step.choice? (.loop label false body :: steps) =
        some (label, steps, body ++ Step.loop label false body :: steps) := rfl
      exact (ih (possible_insert searchable possible choice inside here)
        (placed_choice choice placed)).choice choice new

/-- Where a match lies: the offset where it starts, and the place where it ends. -/
def Found.extent (f : Found) : Nat × Cursor := (f.start, f.stop)

/-- Searching for a program is a search of this kind. -/
theorem seeks_findFrom {p : Program} (searchable : Searchable points p.labels start)
    (inside : Inside points p.steps) {met : Met}
    (possible : ∀ key ∈ met, Possible p.labels start key) {before : Option Char} {offset : Nat}
    {rest : List Scalar} (mem : (⟨before, offset, rest⟩ : Cursor) ∈ start.onward) :
    Seeks p.steps met.keys ⟨before, offset, rest⟩
      ((findFrom p (limit p.labels start) met before offset rest).map Found.extent) := by
  induction rest generalizing met before offset with
  | nil =>
    have realises := runs_run searchable met [⟨p.steps, ⟨before, offset, []⟩, []⟩] possible
      (placed_cons.2 ⟨⟨inside, mem⟩, nofun⟩)
    rw [findFrom]
    split
    · rename_i result
      rw [result] at realises
      exact .here realises.runs
    · rename_i result
      rw [result] at realises
      exact .ended realises.runs rfl
  | cons s rest ih =>
    have realises := runs_run searchable met [⟨p.steps, ⟨before, offset, s :: rest⟩, []⟩] possible
      (placed_cons.2 ⟨⟨inside, mem⟩, nofun⟩)
    rw [findFrom]
    split
    · rename_i result
      rw [result] at realises
      exact .here realises.runs
    · rename_i result
      rw [result] at realises
      exact .later realises.runs rfl (ih realises.possible (Cursor.past_mem_onward mem rfl))

theorem seeks_find? (e : Expr) {c : Cursor} (wide : ∀ s ∈ c.rest, 0 < s.width) :
    Seeks (ofExpr e).steps ∅ c (((ofExpr e).find? c).map Found.extent) := by
  have possible : ∀ key ∈ (∅ : Met), Possible (ofExpr e).labels c key := by simp
  have seeks := seeks_findFrom (Program.searchable e wide) (fun _ mem => mem) possible
    (Cursor.self_mem_onward c)
  have nothing : Met.keys ∅ = ∅ := by
    ext key
    simp [Met.keys]
  rw [nothing] at seeks
  exact seeks

end Program

/-! ### Programs without marks -/

namespace Step

mutual

/-- A step without the marks in it, and with its labels moved up. -/
def bare (n : Nat) : Step → List Step
  | one set => [one set]
  | test condition => [test condition]
  | mark _ => []
  | fork label first second => [fork (label + n) (allBare n first) (allBare n second)]
  | loop label greedy body => [loop (label + n) greedy (allBare n body)]

/-- Steps without the marks in them, and with their labels moved up. -/
def allBare (n : Nat) : List Step → List Step
  | [] => []
  | step :: rest => step.bare n ++ allBare n rest

end

theorem allBare_append (n : Nat) (a b : List Step) :
    allBare n (a ++ b) = allBare n a ++ allBare n b := by
  induction a with
  | nil => rfl
  | cons step rest ih => simp [allBare, ih]

theorem choice?_allBare {n label : Nat} {k first second : List Step}
    (choice : choice? k = some (label, first, second)) :
    choice? (allBare n k) = some (label + n, allBare n first, allBare n second) := by
  unfold choice? at choice
  split at choice
  · cases choice
    simp [allBare, bare, choice?, allBare_append]
  · cases choice
    simp [allBare, bare, choice?, allBare_append]
  · cases choice
    simp [allBare, bare, choice?, allBare_append]
  · cases choice

theorem allBare_of_not_choice {n : Nat} {step : Step} (plain : step.isChoice = false)
    (k : List Step) : allBare n (step :: k) = step :: allBare n k ∨
      allBare n (step :: k) = allBare n k ∧ ∀ c, step.onto c = [c] := by
  cases step with
  | one | test => exact .inl rfl
  | mark => exact .inr ⟨rfl, fun _ => rfl⟩
  | fork | loop => cases plain

end Step

/-- True of two memories if the second holds the choices of the first, for labels below a bound,
    with their labels moved up. -/
def Agree (n high : Nat) (met met' : Set (Nat × Nat)) : Prop :=
  ∀ label offset, label < high → ((label, offset) ∈ met ↔ (label + n, offset) ∈ met')

/-- True of two memories that differ in the labels of a range only. -/
def SameBeside (n high : Nat) (met met' : Set (Nat × Nat)) : Prop :=
  ∀ label offset, label < n ∨ high + n ≤ label → ((label, offset) ∈ met ↔ (label, offset) ∈ met')

theorem Agree.insert {n high label offset : Nat} {met met' : Set (Nat × Nat)}
    (h : Agree n high met met') : Agree n high (insert (label, offset) met)
      (insert (label + n, offset) met') := by
  intro other offset' low
  simp only [Set.mem_insert_iff, Prod.mk.injEq, Nat.add_right_cancel_iff, h other offset' low]

theorem SameBeside.insert {n high label offset : Nat} {met met' : Set (Nat × Nat)}
    (low : label < high) (h : SameBeside n high (insert (label + n, offset) met) met') :
    SameBeside n high met met' := by
  intro other offset' beside
  rw [← h other offset' beside, Set.mem_insert_iff, Prod.mk.injEq]
  have : other ≠ label + n := by omega
  simp [this]

/-- The ways without marks and with other labels. -/
def Way.bare (n : Nat) (way : Way) : Way := (Step.allBare n way.1, way.2)

/-- A run next to others: if it comes to nothing, what is left of the memory are the choices that
    it has met, and the others are next. -/
structure RunsBeside (n high : Nat) (met' : Set (Nat × Nat)) (r : Option Cursor)
    (memory : Set (Nat × Nat)) (ways others : List Way) : Prop where
  some : ∀ d, r = some d → ∃ memory', Runs memory (ways ++ others) (some d) memory'
  none : r = none → ∃ memory', Agree n high met' memory' ∧ SameBeside n high memory memory' ∧
    ∀ r' memory'', Runs memory' others r' memory'' → Runs memory (ways ++ others) r' memory''

section
variable {n high : Nat} {met met' memory : Set (Nat × Nat)} {r : Option Cursor}
    {ways ways' others : List Way}

/-- What holds of the ways after a step holds of those before it. -/
theorem RunsBeside.of_next {memory₁ : Set (Nat × Nat)}
    (h : RunsBeside n high met' r memory₁ ways' others)
    (before : ∀ r' memory', Runs memory₁ (ways' ++ others) r' memory' →
      Runs memory (ways ++ others) r' memory')
    (beside : ∀ memory', SameBeside n high memory₁ memory' → SameBeside n high memory memory') :
    RunsBeside n high met' r memory ways others where
  some d ends := (h.some d ends).imp fun _ run => before _ _ run
  none fails := by
    obtain ⟨memory', agree, same, later⟩ := h.none fails
    exact ⟨memory', agree, beside memory' same,
      fun r' memory'' run => before _ _ (later r' memory'' run)⟩

/-- A run of a program is a run of the program without marks and with other labels, whatever else
    the memory holds and whatever other ways there are. -/
theorem Runs.beside {points : List (Nat × List Step)} (low : ∀ point ∈ points, point.1 < high)
    (run : Runs met ways r met') (inside : ∀ way ∈ ways, Inside points way.1)
    (agree : Agree n high met memory) (others : List Way) :
    RunsBeside n high met' r memory (ways.map (Way.bare n)) others := by
  induction run generalizing memory with
  | @spent met =>
    exact ⟨nofun, fun _ => ⟨memory, agree, fun _ _ _ => Iff.rfl, fun _ _ run => run⟩⟩
  | done =>
    refine ⟨fun d ends => ?_, nofun⟩
    cases ends
    exact ⟨memory, .done⟩
  | @move met met' step k c ways r plain _ ih =>
    obtain ⟨here, rest⟩ := List.forall_mem_cons.1 inside
    have inside' : ∀ way ∈ (step.onto c).map (Prod.mk k) ++ ways, Inside points way.1 := by
      intro way mem
      obtain mem | mem := List.mem_append.1 mem
      · obtain ⟨d, -, rfl⟩ := List.mem_map.1 mem
        exact here.tail
      · exact rest way mem
    have next := ih inside' agree
    have ways_eq : ((step.onto c).map (Prod.mk k) ++ ways).map (Way.bare n) =
        (step.onto c).map (Prod.mk (Step.allBare n k)) ++ ways.map (Way.bare n) := by
      simp [Way.bare]
    rw [ways_eq] at next
    refine next.of_next (fun r' memory' run => ?_) fun _ same => same
    rw [List.map_cons, List.cons_append, Way.bare]
    obtain same | ⟨same, stays⟩ := Step.allBare_of_not_choice (n := n) plain k
    · simp only [same]
      exact .move plain (by rwa [List.append_assoc] at run)
    · simp only [same]
      rwa [stays] at run
  | known choice old _ ih =>
    obtain ⟨here, rest⟩ := List.forall_mem_cons.1 inside
    have bound := low _ (here.choice choice).1
    refine (ih rest agree).of_next (fun r' memory' run => ?_) fun _ same => same
    exact .known (Step.choice?_allBare choice) ((agree _ _ bound).1 old) run
  | choice choice new _ ih =>
    obtain ⟨here, rest⟩ := List.forall_mem_cons.1 inside
    obtain ⟨mem, first, second⟩ := here.choice choice
    have bound := low _ mem
    refine (ih (List.forall_mem_cons.2 ⟨first, List.forall_mem_cons.2 ⟨second, rest⟩⟩)
      agree.insert).of_next (fun r' memory' run => ?_) fun _ same => same.insert bound
    exact .choice (Step.choice?_allBare choice) (fun old => new ((agree _ _ bound).2 old)) run

end

/-! ### Expressions without groups -/

namespace Expr

/-- The expression without its groups. -/
def ungrouped : Expr → Expr
  | empty => empty
  | one set => one set
  | test condition => test condition
  | group _ _ e => e.ungrouped
  | cat a b => cat a.ungrouped b.ungrouped
  | alt a b => alt a.ungrouped b.ungrouped
  | star greedy e => star greedy e.ungrouped
  | plus greedy e => plus greedy e.ungrouped
  | opt greedy e => opt greedy e.ungrouped
  | times min max greedy e => times min max greedy e.ungrouped

theorem nullable_ungrouped (e : Expr) : e.ungrouped.nullable = e.nullable := by
  induction e with
  | _ => simp_all [ungrouped, nullable]

theorem ungrouped_numberFrom (e : Expr) (next : Nat) :
    (e.numberFrom next).1.ungrouped = e.ungrouped := by
  induction e generalizing next with
  | _ => simp_all [ungrouped]

theorem Regroups.ungrouped {a b : Expr} (h : Regroups a b) :
    Regroups a.ungrouped b.ungrouped := by
  induction h with
  | refl => exact .refl _
  | symm _ ih => exact ih.symm
  | trans _ _ ih ih' => exact ih.trans ih'
  | assoc => exact .assoc _ _ _
  | empty_cat => exact .empty_cat _
  | cat_empty => exact .cat_empty _
  | group _ ih => exact ih
  | cat _ _ ih ih' => exact ih.cat ih'
  | alt _ _ ih ih' => exact ih.alt ih'
  | star _ ih => exact ih.star
  | plus _ ih => exact ih.plus
  | opt _ ih => exact ih.opt
  | times _ ih => exact ih.times

theorem ungrouped_concat (es : List Expr) : (concat es).ungrouped = concat (es.map ungrouped) := by
  fun_induction concat es with
  | case1 => rfl
  | case2 e => rfl
  | case3 e rest several ih =>
    cases rest with
    | nil => exact absurd rfl several
    | cons => simp [concat, ungrouped, ih]

theorem ungrouped_choice (es : List Expr) : (choice es).ungrouped = choice (es.map ungrouped) := by
  fun_induction choice es with
  | case1 => rfl
  | case2 e => rfl
  | case3 e rest several ih =>
    cases rest with
    | nil => exact absurd rfl several
    | cons => simp [choice, ungrouped, ih]

end Expr

namespace Builder

/-- True of two builders if the second builds the programs of the first without marks, with any
    label to start with. -/
def Bares (a b : Builder) : Prop :=
  ∀ n label, b (label + n) = (Step.allBare n (a label).1, (a label).2 + n)

variable {a a' b b' : Builder}

theorem Bares.append (h : Bares a a') (h' : Bares b b') : Bares (append a b) (append a' b') := by
  intro n label
  simp [Builder.append, h n label, h' n, Step.allBare_append]

theorem Bares.copies (h : Bares a a') (count : Nat) : Bares (copies count a) (copies count a') := by
  induction count with
  | zero => exact fun _ _ => rfl
  | succ count ih => exact h.append ih

theorem Bares.choice (h : Bares a a') (h' : Bares b b') : Bares (choice a b) (choice a' b') := by
  intro n label
  simp [Builder.choice, h n label, h' n, Step.allBare, Step.bare]
  omega

theorem bare_prefer (n label : Nat) (greedy : Bool) (more less : List Step) :
    (Step.prefer label greedy more less).bare n =
      [.prefer (label + n) greedy (Step.allBare n more) (Step.allBare n less)] := by
  cases greedy <;> rfl

theorem Bares.opt (h : Bares a a') (greedy : Bool) : Bares (opt greedy a) (opt greedy a') := by
  intro n label
  simp [Builder.opt, h n label, Step.allBare, bare_prefer]
  omega

theorem Bares.plus (h : Bares a a') (greedy : Bool) : Bares (plus greedy a) (plus greedy a') := by
  intro n label
  simp [Builder.plus, h n label, Step.allBare_append, Step.allBare, Step.bare]
  omega

theorem Bares.star (h : Bares a a') (greedy nullable : Bool) :
    Bares (star greedy nullable a) (star greedy nullable a') := by
  unfold Builder.star
  split
  · exact (h.plus greedy).opt greedy
  · intro n label
    simp [h n label, Step.allBare, Step.bare]
    omega

theorem Bares.upTo (h : Bares a a') (greedy : Bool) (count : Nat) :
    Bares (upTo greedy a count) (upTo greedy a' count) := by
  induction count with
  | zero => exact fun _ _ => rfl
  | succ count ih => exact (h.append ih).opt greedy

theorem Bares.times (h : Bares a a') (greedy nullable : Bool) (min : Nat) (max : Option Nat) :
    Bares (times greedy nullable a min max) (times greedy nullable a' min max) := by
  cases max with
  | none =>
    cases min with
    | zero => exact h.star greedy nullable
    | succ min => exact (h.copies min).append (h.plus greedy)
  | some max => exact (h.copies min).append (h.upTo greedy (max - min))

end Builder

/-- Without its groups an expression has the same program without marks. -/
theorem Expr.bares_build (e : Expr) : Builder.Bares e.build e.ungrouped.build := by
  induction e with
  | empty => exact fun _ _ => rfl
  | one set => exact fun _ _ => rfl
  | test condition => exact fun _ _ => rfl
  | group index name e ih =>
    intro n label
    simp [ungrouped, build, Builder.append, Builder.step, ih n label, Step.allBare,
      Step.allBare_append, Step.bare]
  | cat a b ha hb => exact ha.append hb
  | alt a b ha hb => exact ha.choice hb
  | star greedy e ih =>
    simp only [build, ungrouped, nullable_ungrouped]
    exact ih.star greedy e.nullable
  | plus greedy e ih => exact ih.plus greedy
  | opt greedy e ih => exact ih.opt greedy
  | times min max greedy e ih =>
    simp only [build, ungrouped, nullable_ungrouped]
    exact ih.times greedy e.nullable min max

/-! ### What is found without groups -/

namespace Expr

/-- How many labels the program of an expression has. -/
def labels (e : Expr) : Nat := (e.build 0).2

/-- The steps of an expression without its groups, with labels from a number on. -/
def bareFrom (e : Expr) (n : Nat) : List Step := (e.ungrouped.build n).1

theorem bareFrom_eq (e : Expr) (n : Nat) :
    e.bareFrom n = Step.allBare n (e.build 0).1 ∧ (e.ungrouped.build n).2 = n + e.labels := by
  have bares := e.bares_build n 0
  rw [Nat.zero_add] at bares
  rw [bareFrom, bares, labels]
  exact ⟨rfl, Nat.add_comm ..⟩

variable {e : Expr} {n : Nat} {met met' memory : Set (Nat × Nat)} {c : Cursor} {r : Option Cursor}

/-- A run of an expression's program from a place, next to others. -/
theorem beside_of_runs (e : Expr) (run : Runs met [((e.build 0).1, c)] r met')
    (agree : Agree n e.labels met memory) (others : List Way) :
    RunsBeside n e.labels met' r memory [(e.bareFrom n, c)] others := by
  have low : ∀ point ∈ Step.pointsOf (e.build 0).1 [], point.1 < e.labels := fun point mem =>
    ((e.neat_build 0).within [] point mem).2
  have beside := run.beside low (List.forall_mem_cons.2 ⟨fun _ mem => mem, nofun⟩) agree others
  rw [(e.bareFrom_eq n).1]
  exact beside

/-- A search for an expression is a search for what it is without its groups. -/
theorem seeks_bareFrom {result : Option (Nat × Cursor)} (seeks : Seeks (e.build 0).1 met c result)
    (agree : Agree 0 e.labels met memory) : Seeks (e.bareFrom 0) memory c result := by
  induction seeks generalizing memory with
  | here run =>
    obtain ⟨memory', run'⟩ := (e.beside_of_runs run agree []).some _ rfl
    exact .here run'
  | ended run last =>
    obtain ⟨memory', -, -, later⟩ := (e.beside_of_runs run agree []).none rfl
    exact .ended (later _ _ .spent) last
  | later run more _ ih =>
    obtain ⟨memory', agree', -, later⟩ := (e.beside_of_runs run agree []).none rfl
    exact .later (later _ _ .spent) more (ih agree')

end Expr

namespace Program

/-- What is found of an expression does not depend on its groups. -/
theorem seeks_bareFrom_find? (e : Expr) {c : Cursor} (wide : ∀ s ∈ c.rest, 0 < s.width) :
    Seeks (e.bareFrom 0) ∅ c (((ofExpr e).find? c).map Found.extent) :=
  Expr.seeks_bareFrom (seeks_find? e wide) fun _ _ _ => Iff.rfl

theorem extent_find?_eq {e e' : Expr} (same : Expr.Regroups e.ungrouped e'.ungrouped) {c : Cursor}
    (wide : ∀ s ∈ c.rest, 0 < s.width) :
    ((ofExpr e).find? c).map Found.extent = ((ofExpr e').find? c).map Found.extent := by
  have seeks := seeks_bareFrom_find? e wide
  have seeks' := seeks_bareFrom_find? e' wide
  rw [Expr.bareFrom, same.build_eq] at seeks
  exact seeks.unique seeks'

theorem extents_kept {last : Option Nat} {f g : Found} {fs gs : List Found}
    (here : f.extent = g.extent) (rest : fs.map Found.extent = gs.map Found.extent) :
    (kept last f fs).map Found.extent = (kept last g gs).map Found.extent := by
  have start : f.start = g.start := congrArg Prod.fst here
  unfold kept
  rw [start]
  split
  · exact rest
  · simp [here, rest]

/-- Searches that find matches of the same extent go on to find the same extents. -/
theorem Lists.extents_eq {p q : Program} {root : Cursor}
    (same : ∀ c ∈ root.onward, (p.find? c).map Found.extent = (q.find? c).map Found.extent)
    {last : Option Nat} {c : Cursor} {fs gs : List Found} (mem : c ∈ root.onward)
    (h : Lists p last c fs) (h' : Lists q last c gs) :
    fs.map Found.extent = gs.map Found.extent := by
  have apart {f g : Found} {c : Cursor} (mem : c ∈ root.onward) (found : p.find? c = some f)
      (found' : q.find? c = some g) : f.extent = g.extent := by
    have here := same c mem
    rw [found, found'] at here
    exact Option.some.inj here
  have finish {f g : Found} (extent : f.extent = g.extent) : f.finish = g.finish :=
    congrArg (fun x => x.2.offset) extent
  induction h generalizing gs with
  | none nothing =>
    have here := same _ mem
    rw [nothing] at here
    cases h' with
    | none => rfl
    | ended found | empty found | full found => rw [found] at here; cases here
  | ended found here stops =>
    cases h' with
    | none nothing =>
      have here := same _ mem
      rw [found, nothing] at here
      cases here
    | ended found' => exact extents_kept (apart mem found found') rfl
    | empty _ _ more => cases stops.symm.trans more
    | full found' further =>
      exact absurd ((finish (apart mem found found')).symm.trans here) further
  | empty found here more _ ih =>
    cases h' with
    | none nothing =>
      have here := same _ mem
      rw [found, nothing] at here
      cases here
    | ended _ _ stops => cases stops.symm.trans more
    | empty found' _ more' rest' =>
      cases more.symm.trans more'
      have extent := apart mem found found'
      rw [← finish extent] at rest'
      exact extents_kept extent (ih (Cursor.past_mem_onward mem more) rest')
    | full found' further =>
      exact absurd ((finish (apart mem found found')).symm.trans here) further
  | @full last c f fs found further _ ih =>
    cases h' with
    | none nothing =>
      have here := same _ mem
      rw [found, nothing] at here
      cases here
    | ended found' here | empty found' here =>
      exact absurd ((finish (apart mem found found')).trans here) further
    | @full _ _ g _ found' _ rest' =>
      have extent := apart mem found found'
      have stop : f.stop = g.stop := congrArg Prod.snd extent
      rw [← finish extent, ← stop] at rest'
      simp [extent, ih (Cursor.onward_trans mem (stop_mem_onward found)) rest']

end Program

end Pattern

end Rulebook

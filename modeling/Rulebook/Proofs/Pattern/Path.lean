import Rulebook.Proofs.Pattern.Program

/-!
# Paths through a program

A path is one way to take the steps of a program from a place to its end, whatever is preferred. A
run finds a match exactly if one of its threads has a path: what it finds is the end of a path
(`Program.exists_path_of_run`), and if it finds nothing there is none (`Program.run_none`), although
it never meets a choice twice. For a choice that is left alone is due to threads that are still to
be followed, and these are nearer to a match.
-/

namespace Rulebook

namespace Pattern

/-- A choice at the start of a program is that choice before anything else. -/
theorem Step.choice?_append {a first second : List Step} {label : Nat}
    (h : choice? a = some (label, first, second)) (b : List Step) :
    choice? (a ++ b) = some (label, first ++ b, second ++ b) := by
  unfold choice? at h
  split at h <;> cases h <;> simp [choice?]

theorem Step.choice?_of_append {a b first second : List Step} {label : Nat} (nonempty : a ≠ [])
    (h : choice? (a ++ b) = some (label, first, second)) :
    ∃ first' second', choice? a = some (label, first', second') ∧ first = first' ++ b ∧
      second = second' ++ b := by
  obtain ⟨step, rest, rfl⟩ := List.exists_cons_of_ne_nil nonempty
  rw [List.cons_append] at h
  cases step with
  | fork label one other =>
    cases h
    exact ⟨_, _, rfl, by simp, by simp⟩
  | loop label greedy body =>
    cases greedy with
    | true =>
      cases h
      exact ⟨_, _, rfl, by simp, rfl⟩
    | false =>
      cases h
      exact ⟨_, _, rfl, rfl, by simp⟩
  | _ => cases h

/-- What is noted on a way, each offset under its slot, the last first. -/
abbrev Marks := List (Nat × Nat)

/-- A path: from a place to the place where the program ends, with what is noted on the way. The
    number is how many steps it takes. -/
inductive Path : Nat → List Step → Cursor → Cursor → Marks → Prop where
  | done {c} : Path 0 [] c c []
  | one {n set k c d m s rest} : c.rest = s :: rest → set.contains s.code = true →
      Path n k (c.past s rest) d m → Path (n + 1) (.one set :: k) c d m
  | test {n a k c d m} : c.holds a = true → Path n k c d m → Path (n + 1) (.test a :: k) c d m
  | mark {n slot k c d m} : Path n k c d m →
      Path (n + 1) (.mark slot :: k) c d (m ++ [(slot, c.offset)])
  | first {n k label first second c d m} : Step.choice? k = some (label, first, second) →
      Path n first c d m → Path (n + 1) k c d m
  | second {n k label first second c d m} : Step.choice? k = some (label, first, second) →
      Path n second c d m → Path (n + 1) k c d m

namespace Path

variable {n : Nat} {k : List Step} {c d : Cursor} {m : Marks}

/-- A path through a program that begins with a choice goes on in one of the two ways. -/
theorem of_choice {label : Nat} {first second : List Step} (h : Path n k c d m)
    (choice : Step.choice? k = some (label, first, second)) :
    ∃ n' < n, Path n' first c d m ∨ Path n' second c d m := by
  cases h with
  | first choice' h =>
    rw [choice] at choice'
    cases choice'
    exact ⟨_, Nat.lt_succ_self _, .inl h⟩
  | second choice' h =>
    rw [choice] at choice'
    cases choice'
    exact ⟨_, Nat.lt_succ_self _, .inr h⟩
  | _ => cases choice

theorem of_nil (h : Path n [] c d m) : d = c ∧ m = [] := by
  cases h with
  | done => exact ⟨rfl, rfl⟩
  | first choice => cases choice
  | second choice => cases choice

theorem of_one {set : CharSet} (h : Path n (.one set :: k) c d m) :
    ∃ s rest n', c.rest = s :: rest ∧ set.contains s.code = true ∧ n = n' + 1 ∧
      Path n' k (c.past s rest) d m := by
  cases h with
  | one here on h => exact ⟨_, _, _, here, on, rfl, h⟩
  | first choice => cases choice
  | second choice => cases choice

theorem of_test {a : Assertion} (h : Path n (.test a :: k) c d m) :
    ∃ n', c.holds a = true ∧ n = n' + 1 ∧ Path n' k c d m := by
  cases h with
  | test on h => exact ⟨_, on, rfl, h⟩
  | first choice => cases choice
  | second choice => cases choice

theorem of_mark {slot : Nat} (h : Path n (.mark slot :: k) c d m) :
    ∃ n' m', n = n' + 1 ∧ m = m' ++ [(slot, c.offset)] ∧ Path n' k c d m' := by
  cases h with
  | mark h => exact ⟨_, _, rfl, rfl, h⟩
  | first choice => cases choice
  | second choice => cases choice

/-- A path through two programs one after the other. -/
theorem append {n' : Nat} {a b : List Step} {e : Cursor} {m' : Marks} (h : Path n a c d m)
    (h' : Path n' b d e m') : Path (n + n') (a ++ b) c e (m' ++ m) := by
  induction h with
  | done => simpa using h'
  | one here on _ ih => exact Nat.succ_add _ _ ▸ .one here on (ih h')
  | test on _ ih => exact Nat.succ_add _ _ ▸ .test on (ih h')
  | mark _ ih =>
    rw [← List.append_assoc]
    exact Nat.succ_add _ _ ▸ .mark (ih h')
  | first choice _ ih => exact Nat.succ_add _ _ ▸ .first (Step.choice?_append choice b) (ih h')
  | second choice _ ih => exact Nat.succ_add _ _ ▸ .second (Step.choice?_append choice b) (ih h')

/-- A path through two programs comes to the end of the first one on its way. -/
theorem split {a b : List Step} {e : Cursor} (h : Path n (a ++ b) c e m) :
    ∃ n₁ n₂ d m₁ m₂, n = n₁ + n₂ ∧ Path n₁ a c d m₁ ∧ Path n₂ b d e m₂ ∧ m = m₂ ++ m₁ := by
  generalize same : a ++ b = k at h
  induction h generalizing a with
  | done =>
    obtain ⟨rfl, rfl⟩ := List.append_eq_nil_iff.1 same
    exact ⟨0, 0, _, [], [], rfl, .done, .done, rfl⟩
  | @one n set k c e m s rest here on path ih =>
    obtain ⟨rfl, rfl⟩ | ⟨a, rfl, rfl⟩ := List.append_eq_cons_iff.1 same
    · exact ⟨0, n + 1, c, [], m, by omega, .done, .one here on path, by simp⟩
    · obtain ⟨n₁, n₂, d, m₁, m₂, rfl, first, second, rfl⟩ := ih rfl
      exact ⟨n₁ + 1, n₂, d, m₁, m₂, by omega, .one here on first, second, rfl⟩
  | @test n a' k c e m on path ih =>
    obtain ⟨rfl, rfl⟩ | ⟨a, rfl, rfl⟩ := List.append_eq_cons_iff.1 same
    · exact ⟨0, n + 1, c, [], m, by omega, .done, .test on path, by simp⟩
    · obtain ⟨n₁, n₂, d, m₁, m₂, rfl, first, second, rfl⟩ := ih rfl
      exact ⟨n₁ + 1, n₂, d, m₁, m₂, by omega, .test on first, second, rfl⟩
  | @mark n slot k c e m path ih =>
    obtain ⟨rfl, rfl⟩ | ⟨a, rfl, rfl⟩ := List.append_eq_cons_iff.1 same
    · exact ⟨0, n + 1, c, [], _, by omega, .done, .mark path, by simp⟩
    · obtain ⟨n₁, n₂, d, m₁, m₂, rfl, first, second, rfl⟩ := ih rfl
      exact ⟨n₁ + 1, n₂, d, _, m₂, by omega, .mark first, second, by simp⟩
  | @first n k label one other c e m choice path ih =>
    subst same
    cases a with
    | nil => exact ⟨0, n + 1, c, [], m, by omega, .done, .first choice path, by simp⟩
    | cons step a =>
      obtain ⟨one', other', choice', rfl, rfl⟩ := Step.choice?_of_append (by simp) choice
      obtain ⟨n₁, n₂, d, m₁, m₂, rfl, first, second, rfl⟩ := ih rfl
      exact ⟨n₁ + 1, n₂, d, m₁, m₂, by omega, .first choice' first, second, rfl⟩
  | @second n k label one other c e m choice path ih =>
    subst same
    cases a with
    | nil => exact ⟨0, n + 1, c, [], m, by omega, .done, .second choice path, by simp⟩
    | cons step a =>
      obtain ⟨one', other', choice', rfl, rfl⟩ := Step.choice?_of_append (by simp) choice
      obtain ⟨n₁, n₂, d, m₁, m₂, rfl, first, second, rfl⟩ := ih rfl
      exact ⟨n₁ + 1, n₂, d, m₁, m₂, by omega, .second choice' first, second, rfl⟩

end Path

namespace Program

variable {bound : Nat} {met : Met} {threads : List Thread}

/-! ### What is found is the end of a path -/

/-- True if a thread that has come to its end was one of several, at the start of a path. -/
def EndOf (threads : List Thread) (t : Thread) : Prop :=
  ∃ thread ∈ threads, ∃ n m, Path n thread.steps thread.place t.place m ∧ t.marks = m ++ thread.marks

theorem EndOf.later {thread t : Thread} (h : EndOf threads t) : EndOf (thread :: threads) t := by
  obtain ⟨other, mem, found⟩ := h
  exact ⟨other, List.mem_cons_of_mem _ mem, found⟩

/-- What is found on behalf of a thread is found by that thread. -/
theorem EndOf.back (nexts : List Thread) {others : List Thread} {thread t : Thread}
    (h : EndOf (nexts ++ others) t)
    (step : ∀ next ∈ nexts, ∀ {n d m}, Path n next.steps next.place d m →
      ∃ m', Path (n + 1) thread.steps thread.place d m' ∧ m' ++ thread.marks = m ++ next.marks) :
    EndOf (thread :: others) t := by
  obtain ⟨other, mem, n, m, path, marks⟩ := h
  obtain mem | mem := List.mem_append.1 mem
  · obtain ⟨m', path', same⟩ := step other mem path
    exact ⟨thread, List.mem_cons_self .., n + 1, m', path', marks.trans same.symm⟩
  · exact ⟨other, List.mem_cons_of_mem _ mem, n, m, path, marks⟩

theorem EndOf.choice {k first second : List Step} {label : Nat} {c : Cursor} {marks : Marks}
    {others : List Thread} {t : Thread} (choice : Step.choice? k = some (label, first, second))
    (h : EndOf (⟨first, c, marks⟩ :: ⟨second, c, marks⟩ :: others) t) :
    EndOf (⟨k, c, marks⟩ :: others) t := by
  refine .back [⟨first, c, marks⟩, ⟨second, c, marks⟩] h fun next mem n d m path => ?_
  obtain rfl | mem := List.mem_cons.1 mem
  · exact ⟨m, .first choice path, rfl⟩
  · cases List.mem_singleton.1 mem
    exact ⟨m, .second choice path, rfl⟩

/-- A run finds the end of a path of one of its threads. -/
theorem endOf_run {t : Thread} (h : (run bound met threads).1 = some t) : EndOf threads t := by
  fun_induction run bound met threads with
  | case1 => cases h
  | case2 met place marks others =>
    cases h
    exact ⟨_, List.mem_cons_self .., 0, [], .done, rfl⟩
  | case3 met set steps place marks others ended ih => exact (ih h).later
  | case4 met set steps place marks others s rest here on ih =>
    refine .back [_] (ih h) fun next mem n d m path => ?_
    cases List.mem_singleton.1 mem
    exact ⟨m, .one here on path, rfl⟩
  | case5 met set steps place marks others s rest here off ih => exact (ih h).later
  | case6 met condition steps place marks others on ih =>
    refine .back [_] (ih h) fun next mem n d m path => ?_
    cases List.mem_singleton.1 mem
    exact ⟨m, .test on path, rfl⟩
  | case7 met condition steps place marks others off ih => exact (ih h).later
  | case8 met slot steps place marks others ih =>
    refine .back [_] (ih h) fun next mem n d m path => ?_
    cases List.mem_singleton.1 mem
    exact ⟨m ++ [(slot, place.offset)], .mark path, by simp⟩
  | case9 met label first second steps place marks others left ih => exact (ih h).later
  | case10 met label first second steps place marks others new ih => exact .choice rfl (ih h)
  | case11 met label greedy body steps place marks others left ih => exact (ih h).later
  | case12 met label greedy body steps place marks others new again leave ih =>
    cases greedy with
    | true => exact .choice (k := .loop label true body :: steps) rfl (ih h)
    | false => exact .choice (k := .loop label false body :: steps) rfl (ih h)

/-! ### Where nothing is found there is no path -/

/-- True if one of several threads has a path of at most so many steps. -/
def Ends (threads : List Thread) (n : Nat) : Prop :=
  ∃ t ∈ threads, ∃ n' ≤ n, ∃ d m, Path n' t.steps t.place d m

theorem Ends.mono {n n' : Nat} (h : Ends threads n) (le : n ≤ n') : Ends threads n' := by
  obtain ⟨t, mem, size, small, path⟩ := h
  exact ⟨t, mem, size, Nat.le_trans small le, path⟩

theorem not_ends_nil (n : Nat) : ¬ Ends [] n := nofun

theorem ends_cons {t : Thread} {n : Nat} :
    Ends (t :: threads) n ↔ (∃ n' ≤ n, ∃ d m, Path n' t.steps t.place d m) ∨ Ends threads n := by
  simp [Ends]

/-- True of threads that can take the place of others: they have paths where these do, which are no
    longer. -/
def Covers (nexts threads : List Thread) : Prop := ∀ n, Ends threads n → Ends nexts n

theorem Covers.cons {t : Thread} (nexts : List Thread) {others : List Thread}
    (h : ∀ {n d m}, Path n t.steps t.place d m → Ends (nexts ++ others) n) :
    Covers (nexts ++ others) (t :: others) := by
  intro n ends
  obtain ⟨n', le, d, m, path⟩ | ⟨t', mem, found⟩ := ends_cons.1 ends
  · exact (h path).mono le
  · exact ⟨t', List.mem_append_right _ mem, found⟩

/-- A thread that comes to nothing can be left out. -/
theorem Covers.drop {t : Thread} {others : List Thread}
    (h : ∀ {n d m}, ¬ Path n t.steps t.place d m) : Covers others (t :: others) :=
  .cons [] fun path => absurd path h

/-- A thread that goes on in one way. -/
theorem Covers.step {t next : Thread} {others : List Thread}
    (h : ∀ {n d m}, Path n t.steps t.place d m →
      ∃ n' ≤ n, ∃ m', Path n' next.steps next.place d m') :
    Covers (next :: others) (t :: others) := by
  refine .cons [next] fun path => ?_
  obtain ⟨n', le, m', path'⟩ := h path
  exact ⟨next, List.mem_cons_self .., n', le, _, m', path'⟩

variable {points : List (Nat × List Step)} {labels : Nat} {start : Cursor}

/-- What is true of the choices that have been met while some threads are still to be followed: a
    choice from which there is a path is due to a thread that has a shorter one. -/
structure Pending (points : List (Nat × List Step)) (labels : Nat) (start : Cursor) (met : Met)
    (threads : List Thread) : Prop where
  possible : ∀ key ∈ met, Possible labels start key
  inside : ∀ t ∈ threads, Inside points t.steps ∧ t.place ∈ start.onward
  due : ∀ {label k c n d m}, (label, k) ∈ points → c ∈ start.onward → (label, c.offset) ∈ met →
    Path n k c d m → ∃ n' < n, Ends threads n'

namespace Pending

theorem next {nexts : List Thread} (h : Pending points labels start met threads)
    (covers : Covers nexts threads)
    (inside : ∀ t ∈ nexts, Inside points t.steps ∧ t.place ∈ start.onward) :
    Pending points labels start met nexts where
  possible := h.possible
  inside := inside
  due here place mem path := by
    obtain ⟨n', lt, ends⟩ := h.due here place mem path
    exact ⟨n', lt, covers n' ends⟩

variable {t : Thread} {others : List Thread}

theorem tail (h : Pending points labels start met (t :: others)) :
    ∀ t ∈ others, Inside points t.steps ∧ t.place ∈ start.onward :=
  fun t mem => h.inside t (List.mem_cons_of_mem _ mem)

/-- The first thread goes on in one way. -/
theorem head {next : Thread} (h : Pending points labels start met (t :: others))
    (covers : Covers (next :: others) (t :: others)) (steps : Inside points next.steps)
    (place : next.place ∈ start.onward) : Pending points labels start met (next :: others) :=
  h.next covers (List.forall_mem_cons.2 ⟨⟨steps, place⟩, h.tail⟩)

variable {k first second : List Step} {label : Nat} {c : Cursor} {marks : Marks}

/-- A choice that has been met is left alone. If there is a path from it, then one of the other
    threads has a path too, since the thread itself cannot have shorter and shorter ones. -/
theorem covers_of_met (h : Pending points labels start met (⟨k, c, marks⟩ :: others))
    (choice : Step.choice? k = some (label, first, second)) (mem : (label, c.offset) ∈ met) :
    Covers others (⟨k, c, marks⟩ :: others) := by
  refine .cons [] fun {n d m} path => ?_
  obtain ⟨inside, place⟩ := h.inside _ (List.mem_cons_self ..)
  have here := (inside.choice choice).1
  induction n using Nat.strongRecOn generalizing d m with
  | _ n ih =>
    obtain ⟨n', lt, ends⟩ := h.due here place mem path
    obtain ⟨n'', le, d', m', path'⟩ | ends := ends_cons.1 ends
    · exact (ih n'' (Nat.lt_of_le_of_lt le lt) path').mono (Nat.le_of_lt (Nat.lt_of_le_of_lt le lt))
    · exact ends.mono (Nat.le_of_lt lt)

theorem covers_choice (choice : Step.choice? k = some (label, first, second)) :
    Covers (⟨first, c, marks⟩ :: ⟨second, c, marks⟩ :: others) (⟨k, c, marks⟩ :: others) := by
  refine .cons [⟨first, c, marks⟩, ⟨second, c, marks⟩] fun path => ?_
  obtain ⟨n', lt, path | path⟩ := path.of_choice choice
  · exact ⟨⟨first, c, marks⟩, by simp, n', Nat.le_of_lt lt, _, _, path⟩
  · exact ⟨⟨second, c, marks⟩, by simp, n', Nat.le_of_lt lt, _, _, path⟩

/-- A choice that is met for the first time. -/
theorem choice (searchable : Searchable points labels start)
    (h : Pending points labels start met (⟨k, c, marks⟩ :: others))
    (choice : Step.choice? k = some (label, first, second)) :
    Pending points labels start (met.insert (label, c.offset))
      (⟨first, c, marks⟩ :: ⟨second, c, marks⟩ :: others) := by
  obtain ⟨inside, place⟩ := h.inside _ (List.mem_cons_self ..)
  obtain ⟨here, inside₁, inside₂⟩ := inside.choice choice
  have after := h.next (covers_choice choice)
    (List.forall_mem_cons.2 ⟨⟨inside₁, place⟩, List.forall_mem_cons.2 ⟨⟨inside₂, place⟩, h.tail⟩⟩)
  refine ⟨fun key mem => ?_, after.inside, fun {label' k' c' n d m} here' place' mem path => ?_⟩
  · obtain rfl | mem := mem_insert.1 mem
    · exact ⟨searchable.bounded _ here, c, place, rfl⟩
    · exact h.possible key mem
  · obtain same | mem := mem_insert.1 mem
    · -- the choice itself, both ways of which are among the threads
      obtain ⟨rfl, offset⟩ := Prod.mk.inj same
      cases searchable.functional _ _ _ here here'
      cases Cursor.eq_of_offset searchable.wide place' place offset
      obtain ⟨n', lt, path | path⟩ := path.of_choice choice
      · exact ⟨n', lt, ⟨first, c, marks⟩, by simp, n', Nat.le_refl _, d, m, path⟩
      · exact ⟨n', lt, ⟨second, c, marks⟩, by simp, n', Nat.le_refl _, d, m, path⟩
    · exact after.due here' place' mem path

/-- A choice that has not been met is met before the limit is reached. -/
theorem size_lt (searchable : Searchable points labels start)
    (h : Pending points labels start met (⟨k, c, marks⟩ :: others))
    (choice : Step.choice? k = some (label, first, second)) (new : (label, c.offset) ∉ met) :
    met.size < limit labels start := by
  obtain ⟨inside, place⟩ := h.inside _ (List.mem_cons_self ..)
  exact size_lt_limit h.possible new ⟨searchable.bounded _ (inside.choice choice).1, c, place, rfl⟩

/-- A choice that is left alone has been met. -/
theorem met_of_left (searchable : Searchable points labels start)
    (h : Pending points labels start met (⟨k, c, marks⟩ :: others))
    (choice : Step.choice? k = some (label, first, second))
    (left : (label, c.offset) ∈ met ∨ limit labels start ≤ met.size) : (label, c.offset) ∈ met := by
  by_contra new
  have := h.size_lt searchable choice new
  obtain mem | full := left
  · exact new mem
  · omega

end Pending

/-- If a run finds nothing, none of its threads has a path, and no choice that has been met has
    one. -/
theorem run_none {met' : Met} (searchable : Searchable points labels start)
    (pending : Pending points labels start met threads)
    (h : run (limit labels start) met threads = (none, met')) :
    Pending points labels start met' [] ∧ ∀ n, ¬ Ends threads n := by
  -- each step replaces the threads by others that cover them
  have go {met nexts threads} (covers : Covers nexts threads)
      (ih : Pending points labels start met nexts → Pending points labels start met' [] ∧
        ∀ n, ¬ Ends nexts n) (after : Pending points labels start met nexts) :
      Pending points labels start met' [] ∧ ∀ n, ¬ Ends threads n :=
    ⟨(ih after).1, fun n ends => (ih after).2 n (covers n ends)⟩
  fun_induction run (limit labels start) met threads with
  | case1 met =>
    cases h
    exact ⟨pending, not_ends_nil⟩
  | case2 met place marks others => cases h
  | case3 met set steps place marks others ended ih =>
    have covers : Covers others (⟨.one set :: steps, place, marks⟩ :: others) := by
      refine .drop fun path => ?_
      obtain ⟨s, rest, n', here, -⟩ := path.of_one
      rw [ended] at here
      cases here
    exact go covers (ih · h) (pending.next covers pending.tail)
  | case4 met set steps place marks others s rest here on ih =>
    obtain ⟨inside, mem⟩ := pending.inside _ (List.mem_cons_self ..)
    have covers : Covers (⟨steps, place.past s rest, marks⟩ :: others)
        (⟨.one set :: steps, place, marks⟩ :: others) := by
      refine .step fun path => ?_
      obtain ⟨s', rest', n', here', -, rfl, later⟩ := path.of_one
      rw [here] at here'
      cases here'
      exact ⟨n', Nat.le_succ _, _, later⟩
    exact go covers (ih · h)
      (pending.head covers inside.tail (Cursor.past_mem_onward mem here))
  | case5 met set steps place marks others s rest here off ih =>
    have covers : Covers others (⟨.one set :: steps, place, marks⟩ :: others) := by
      refine .drop fun path => ?_
      obtain ⟨s', rest', n', here', on, -⟩ := path.of_one
      rw [here] at here'
      cases here'
      exact off on
    exact go covers (ih · h) (pending.next covers pending.tail)
  | case6 met condition steps place marks others on ih =>
    obtain ⟨inside, mem⟩ := pending.inside _ (List.mem_cons_self ..)
    have covers : Covers (⟨steps, place, marks⟩ :: others)
        (⟨.test condition :: steps, place, marks⟩ :: others) := by
      refine .step fun path => ?_
      obtain ⟨n', -, rfl, later⟩ := path.of_test
      exact ⟨n', Nat.le_succ _, _, later⟩
    exact go covers (ih · h) (pending.head covers inside.tail mem)
  | case7 met condition steps place marks others off ih =>
    have covers : Covers others (⟨.test condition :: steps, place, marks⟩ :: others) := by
      refine .drop fun path => ?_
      obtain ⟨n', on, -⟩ := path.of_test
      exact off on
    exact go covers (ih · h) (pending.next covers pending.tail)
  | case8 met slot steps place marks others ih =>
    obtain ⟨inside, mem⟩ := pending.inside _ (List.mem_cons_self ..)
    have covers : Covers (⟨steps, place, (slot, place.offset) :: marks⟩ :: others)
        (⟨.mark slot :: steps, place, marks⟩ :: others) := by
      refine .step fun path => ?_
      obtain ⟨n', m', rfl, -, later⟩ := path.of_mark
      exact ⟨n', Nat.le_succ _, _, later⟩
    exact go covers (ih · h) (pending.head covers inside.tail mem)
  | case9 met label first second steps place marks others left ih =>
    have covers := pending.covers_of_met rfl (pending.met_of_left searchable rfl left)
    exact go covers (ih · h) (pending.next covers pending.tail)
  | case10 met label first second steps place marks others new ih =>
    exact go (Pending.covers_choice rfl) (ih · h) (pending.choice searchable rfl)
  | case11 met label greedy body steps place marks others left ih =>
    obtain ⟨a, b, choice⟩ : ∃ a b, Step.choice? (.loop label greedy body :: steps) =
        some (label, a, b) := by cases greedy <;> exact ⟨_, _, rfl⟩
    have covers := pending.covers_of_met choice (pending.met_of_left searchable choice left)
    exact go covers (ih · h) (pending.next covers pending.tail)
  | case12 met label greedy body steps place marks others new again leave ih =>
    cases greedy with
    | true =>
      exact go (Pending.covers_choice (k := .loop label true body :: steps) rfl) (ih · h)
        (pending.choice searchable rfl)
    | false =>
      exact go (Pending.covers_choice (k := .loop label false body :: steps) rfl) (ih · h)
        (pending.choice searchable rfl)

end Program

end Pattern

end Rulebook

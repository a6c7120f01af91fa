import Mathlib.Data.List.Perm.Subperm
import Mathlib.Data.List.ProdSigma
import Rulebook.Pattern.Search

/-!
# What a search finds

`Yields` is matching without a memory: it takes the first branch of every choice and, if that comes
to nothing, the second one. A program run with the memory of the choices that it has met comes to
the same (`run_of_yields_none`, `run_of_yields_some`). What makes this true is that a choice is left
alone only where it has failed, since a choice that is still being tried is larger, as a derivation
of `Yields`, than all that is tried on its behalf.
-/

namespace Rulebook

namespace Pattern

/-! ### Choices -/

/-- The label of the choice that a program begins with, and the two ways to go on. -/
def Step.choice? : List Step → Option (Nat × List Step × List Step)
  | fork label first second :: rest => some (label, first ++ rest, second ++ rest)
  | loop label true body :: rest => some (label, body ++ loop label true body :: rest, rest)
  | loop label false body :: rest => some (label, rest, body ++ loop label false body :: rest)
  | _ => none

/-- Matching from a place on, where `none` says that there is no match. The number is the size of
    the derivation. -/
inductive Yields : Nat → List Step → Cursor → List (Nat × Nat) → Option (Cursor × List (Nat × Nat)) →
    Prop where
  | done {c m} : Yields 0 [] c m (some (c, m))
  | ended {set k c m} : c.rest = [] → Yields 0 (.one set :: k) c m none
  | other {set k c m s rest} : c.rest = s :: rest → set.contains s.code = false →
      Yields 0 (.one set :: k) c m none
  | one {n set k c m r s rest} : c.rest = s :: rest → set.contains s.code = true →
      Yields n k (c.past s rest) m r → Yields (n + 1) (.one set :: k) c m r
  | missed {a k c m} : c.holds a = false → Yields 0 (.test a :: k) c m none
  | test {n a k c m r} : c.holds a = true → Yields n k c m r → Yields (n + 1) (.test a :: k) c m r
  | mark {n slot k c m r} : Yields n k c ((slot, c.offset) :: m) r →
      Yields (n + 1) (.mark slot :: k) c m r
  | first {n k label first second c m r} : Step.choice? k = some (label, first, second) →
      Yields n first c m (some r) → Yields (n + 1) k c m (some r)
  | second {n n' k label first second c m r} : Step.choice? k = some (label, first, second) →
      Yields n first c m none → Yields n' second c m r → Yields (n + n' + 1) k c m r

namespace Yields

/-- Whether there is a match, and how long it takes to find out, does not depend on the marks. -/
theorem unique {n n' : Nat} {k : List Step} {c : Cursor} {m m' : List (Nat × Nat)}
    {r r' : Option (Cursor × List (Nat × Nat))} (h : Yields n k c m r) (h' : Yields n' k c m' r') :
    n = n' ∧ r.isSome = r'.isSome := by
  induction h generalizing n' m' r' with
  | done =>
    cases h' with
    | done => exact ⟨rfl, rfl⟩
    | first choice => cases choice
    | second choice => cases choice
  | ended rest =>
    cases h' with
    | ended => exact ⟨rfl, rfl⟩
    | other => exact ⟨rfl, rfl⟩
    | one rest' => rw [rest] at rest'; cases rest'
    | first choice => cases choice
    | second choice => cases choice
  | other rest off =>
    cases h' with
    | ended => exact ⟨rfl, rfl⟩
    | other => exact ⟨rfl, rfl⟩
    | one rest' on =>
      rw [rest] at rest'
      cases rest'
      rw [off] at on
      cases on
    | first choice => cases choice
    | second choice => cases choice
  | one rest on _ ih =>
    cases h' with
    | ended rest' => rw [rest] at rest'; cases rest'
    | other rest' off =>
      rw [rest] at rest'
      cases rest'
      rw [off] at on
      cases on
    | one rest' _ h' =>
      rw [rest] at rest'
      cases rest'
      obtain ⟨rfl, same⟩ := ih h'
      exact ⟨rfl, same⟩
    | first choice => cases choice
    | second choice => cases choice
  | missed off =>
    cases h' with
    | missed => exact ⟨rfl, rfl⟩
    | test on => rw [off] at on; cases on
    | first choice => cases choice
    | second choice => cases choice
  | test on _ ih =>
    cases h' with
    | missed off => rw [off] at on; cases on
    | test _ h' =>
      obtain ⟨rfl, same⟩ := ih h'
      exact ⟨rfl, same⟩
    | first choice => cases choice
    | second choice => cases choice
  | mark _ ih =>
    cases h' with
    | mark h' =>
      obtain ⟨rfl, same⟩ := ih h'
      exact ⟨rfl, same⟩
    | first choice => cases choice
    | second choice => cases choice
  | first choice _ ih =>
    cases h' with
    | first choice' h' =>
      rw [choice] at choice'
      cases choice'
      obtain ⟨rfl, -⟩ := ih h'
      exact ⟨rfl, rfl⟩
    | second choice' h' =>
      rw [choice] at choice'
      cases choice'
      exact absurd (ih h').2 (by simp)
    | _ => cases choice
  | second choice _ _ ih ih' =>
    cases h' with
    | first choice' h' =>
      rw [choice] at choice'
      cases choice'
      exact absurd (ih h').2 (by simp)
    | second choice' h' h'' =>
      rw [choice] at choice'
      cases choice'
      obtain ⟨rfl, -⟩ := ih h'
      obtain ⟨rfl, same⟩ := ih' h''
      exact ⟨rfl, same⟩
    | _ => cases choice

end Yields

/-! ### The choices of a program -/

namespace Step

mutual

/-- The choices of a step, each with its label and with the program from it on, if the step is
    followed by a program. -/
def points : Step → List Step → List (Nat × List Step)
  | one _, _ => []
  | test _, _ => []
  | mark _, _ => []
  | fork label first second, k =>
      (label, fork label first second :: k) :: (pointsOf first k ++ pointsOf second k)
  | loop label greedy body, k =>
      (label, loop label greedy body :: k) :: pointsOf body (loop label greedy body :: k)

/-- The choices of steps that are followed by a program. -/
def pointsOf : List Step → List Step → List (Nat × List Step)
  | [], _ => []
  | step :: rest, k => step.points (rest ++ k) ++ pointsOf rest k

end

theorem pointsOf_append (a b k : List Step) :
    pointsOf (a ++ b) k = pointsOf a (b ++ k) ++ pointsOf b k := by
  induction a with
  | nil => rfl
  | cons step rest ih => simp [pointsOf, ih]

end Step

/-- True if a label stands for one program only. -/
def Functional (points : List (Nat × List Step)) : Prop :=
  ∀ label k k', (label, k) ∈ points → (label, k') ∈ points → k = k'

/-- True of a program all choices of which are among given ones. -/
def Inside (points : List (Nat × List Step)) (k : List Step) : Prop :=
  ∀ point ∈ Step.pointsOf k [], point ∈ points

namespace Inside

variable {points : List (Nat × List Step)} {k : List Step}

theorem tail {step : Step} (h : Inside points (step :: k)) : Inside points k :=
  fun point mem => h point (by simp [Step.pointsOf, mem])

/-- The program itself is the one of its label, and both ways on are inside. -/
theorem choice {label : Nat} {first second : List Step} (h : Inside points k)
    (choice : Step.choice? k = some (label, first, second)) :
    (label, k) ∈ points ∧ Inside points first ∧ Inside points second := by
  unfold Step.choice? at choice
  split at choice
  · cases choice
    refine ⟨h _ (by simp [Step.pointsOf, Step.points]), fun point mem => h point ?_,
      fun point mem => h point ?_⟩
    all_goals
      simp only [Step.pointsOf_append, List.append_nil, List.mem_append] at mem
      simp only [Step.pointsOf, Step.points, List.append_nil, List.cons_append, List.mem_cons,
        List.mem_append]
      grind -linarith
  · cases choice
    refine ⟨h _ (by simp [Step.pointsOf, Step.points]), fun point mem => h point ?_, h.tail⟩
    simp only [Step.pointsOf_append, List.append_nil, List.mem_append] at mem
    obtain mem | mem := mem
    · simp [Step.pointsOf, Step.points, mem]
    · exact mem
  · cases choice
    refine ⟨h _ (by simp [Step.pointsOf, Step.points]), h.tail, fun point mem => h point ?_⟩
    simp only [Step.pointsOf_append, List.append_nil, List.mem_append] at mem
    obtain mem | mem := mem
    · simp [Step.pointsOf, Step.points, mem]
    · exact mem
  · cases choice

end Inside

/-! ### Places in a text -/

namespace Cursor

/-- The places from a place on. -/
def along : Option Char → Nat → List Scalar → List Cursor
  | before, offset, [] => [⟨before, offset, []⟩]
  | before, offset, s :: rest =>
      ⟨before, offset, s :: rest⟩ :: along (some s.char) (offset + s.width) rest

/-- The places from a place on. -/
def onward (c : Cursor) : List Cursor := along c.before c.offset c.rest

theorem length_along (before : Option Char) (offset : Nat) (rest : List Scalar) :
    (along before offset rest).length = rest.length + 1 := by
  induction rest generalizing before offset with
  | nil => rfl
  | cons s rest ih => simp [along, ih]

theorem self_mem_onward (c : Cursor) : c ∈ c.onward := by
  obtain ⟨before, offset, rest⟩ := c
  cases rest <;> simp [onward, along]

theorem past_mem_onward {c d : Cursor} {s : Scalar} {rest : List Scalar} (mem : d ∈ c.onward)
    (here : d.rest = s :: rest) : d.past s rest ∈ c.onward := by
  have go : ∀ (xs : List Scalar) (before : Option Char) (offset : Nat), d ∈ along before offset xs →
      d.past s rest ∈ along before offset xs := by
    intro xs
    induction xs with
    | nil =>
      intro before offset mem
      simp only [along, List.mem_singleton] at mem
      rw [mem] at here
      cases here
    | cons x xs ih =>
      intro before offset mem
      simp only [along, List.mem_cons] at mem ⊢
      obtain rfl | mem := mem
      · right
        cases here
        exact self_mem_onward ⟨some s.char, offset + s.width, rest⟩
      · exact .inr (ih _ _ mem)
  exact go c.rest c.before c.offset mem

theorem le_of_mem_along {d : Cursor} (xs : List Scalar) (before : Option Char) (offset : Nat)
    (mem : d ∈ along before offset xs) : offset ≤ d.offset := by
  induction xs generalizing before offset with
  | nil =>
    simp only [along, List.mem_singleton] at mem
    exact mem ▸ Nat.le_refl _
  | cons x xs ih =>
    simp only [along, List.mem_cons] at mem
    obtain rfl | mem := mem
    · exact Nat.le_refl _
    · exact Nat.le_trans (Nat.le_add_right ..) (ih _ _ mem)

/-- In a text whose characters all take up bytes, the offset tells the place. -/
theorem eq_of_offset {c d e : Cursor} (wide : ∀ s ∈ c.rest, 0 < s.width) (hd : d ∈ c.onward)
    (he : e ∈ c.onward) (same : d.offset = e.offset) : d = e := by
  have go : ∀ (xs : List Scalar) (before : Option Char) (offset : Nat),
      (∀ s ∈ xs, 0 < s.width) → d ∈ along before offset xs → e ∈ along before offset xs →
      d = e := by
    intro xs
    induction xs with
    | nil =>
      intro before offset _ hd he
      simp only [along, List.mem_singleton] at hd he
      rw [hd, he]
    | cons x xs ih =>
      intro before offset wide hd he
      have first := wide x (by simp)
      simp only [along, List.mem_cons] at hd he
      obtain rfl | hd := hd
      · obtain rfl | he := he
        · rfl
        · have := le_of_mem_along _ _ _ he
          simp only at same
          omega
      · obtain rfl | he := he
        · have := le_of_mem_along _ _ _ hd
          simp only at same
          omega
        · exact ih _ _ (fun s mem => wide s (by simp [mem])) hd he
  exact go c.rest c.before c.offset wide hd he

end Cursor

/-! ### Running with a memory -/

namespace Program

theorem run_choice {bound : Nat} {met : Met} {k first second : List Step} {label : Nat} {c : Cursor}
    {m : List (Nat × Nat)} {others : List Thread}
    (choice : Step.choice? k = some (label, first, second)) :
    run bound met (⟨k, c, m⟩ :: others) =
      if (label, c.offset) ∈ met ∨ bound ≤ met.size then run bound met others
      else run bound (met.insert (label, c.offset)) (⟨first, c, m⟩ :: ⟨second, c, m⟩ :: others) := by
  unfold Step.choice? at choice
  split at choice
  · cases choice
    rw [run]
  · cases choice
    rw [run]
    simp
  · cases choice
    rw [run]
    simp
  · cases choice

/-- What is needed of a program and a text: labels that stand for one program each, and characters
    that take up bytes. -/
structure Searchable (points : List (Nat × List Step)) (labels : Nat) (start : Cursor) : Prop where
  functional : Functional points
  bounded : ∀ point ∈ points, point.1 < labels
  wide : ∀ s ∈ start.rest, 0 < s.width

/-- How many choices there are to meet at most. -/
def limit (labels : Nat) (start : Cursor) : Nat := labels * (start.rest.length + 1)

variable {points : List (Nat × List Step)} {labels : Nat} {start : Cursor}

/-- A choice that can be met in a text. -/
structure Possible (labels : Nat) (start : Cursor) (key : Nat × Nat) : Prop where
  label : key.1 < labels
  place : ∃ c ∈ start.onward, c.offset = key.2

/-- True of a choice that comes to nothing. -/
def Fails (points : List (Nat × List Step)) (start : Cursor) (key : Nat × Nat) : Prop :=
  ∃ k c n m, (key.1, k) ∈ points ∧ c ∈ start.onward ∧ c.offset = key.2 ∧ Yields n k c m none

/-- True of a choice that comes to something, after more than some number of steps. -/
def Finds (points : List (Nat × List Step)) (start : Cursor) (size : Nat) (key : Nat × Nat) : Prop :=
  ∃ k c n m r, (key.1, k) ∈ points ∧ c ∈ start.onward ∧ c.offset = key.2 ∧
    Yields n k c m (some r) ∧ size < n

/-- Choices that have been met: those that have come to nothing, and those on the way to a place
    from which the match is still more than some number of steps away. -/
structure Known (points : List (Nat × List Step)) (labels : Nat) (start : Cursor) (size : Nat)
    (met : Met) : Prop where
  possible : ∀ key ∈ met, Possible labels start key
  tried : ∀ key ∈ met, Fails points start key ∨ Finds points start size key

/-- Choices that have been met without leading anywhere, beside those that had been met before. -/
structure Tried (points : List (Nat × List Step)) (labels : Nat) (start : Cursor) (met met' : Met) :
    Prop where
  possible : ∀ key ∈ met', key ∈ met ∨ Possible labels start key
  fails : ∀ key ∈ met', key ∈ met ∨ Fails points start key

theorem Tried.refl (met : Met) : Tried points labels start met met :=
  ⟨fun _ mem => .inl mem, fun _ mem => .inl mem⟩

theorem Tried.trans {met met' met'' : Met} (h : Tried points labels start met met')
    (h' : Tried points labels start met' met'') : Tried points labels start met met'' where
  possible key mem := (h'.possible key mem).elim (h.possible key) .inr
  fails key mem := (h'.fails key mem).elim (h.fails key) .inr

theorem Tried.known {size : Nat} {met met' : Met} (h : Tried points labels start met met')
    (known : Known points labels start size met) : Known points labels start size met' where
  possible key mem := (h.possible key mem).elim (known.possible key) id
  tried key mem := (h.fails key mem).elim (known.tried key) .inl

theorem Known.mono {size size' : Nat} {met : Met} (h : Known points labels start size met)
    (le : size' ≤ size) : Known points labels start size' met where
  possible := h.possible
  tried key mem := (h.tried key mem).imp id fun ⟨k, c, n, m, r, inside, place, offset, yields, lt⟩ =>
    ⟨k, c, n, m, r, inside, place, offset, yields, Nat.lt_of_le_of_lt le lt⟩

/-- As long as there is a choice to meet, the limit is not reached. -/
theorem size_lt_limit {met : Met} {key : Nat × Nat}
    (possible : ∀ key ∈ met, Possible labels start key) (new : key ∉ met)
    (here : Possible labels start key) : met.size < limit labels start := by
  have nodup : (key :: met.toList).Nodup := by
    refine List.nodup_cons.2 ⟨by simpa using new, ?_⟩
    exact met.distinct_toList.imp fun ne eq => by simp [eq] at ne
  have sub : key :: met.toList ⊆
      List.range labels ×ˢ start.onward.map Cursor.offset := by
    intro k mem
    have poss : Possible labels start k := by
      obtain rfl | mem := List.mem_cons.1 mem
      · exact here
      · exact possible k (by simpa using mem)
    obtain ⟨c, place, offset⟩ := poss.place
    exact List.mem_product.2 ⟨List.mem_range.2 poss.label, List.mem_map.2 ⟨c, place, offset⟩⟩
  have le := (List.subperm_of_subset nodup sub).length_le
  rw [List.length_product, List.length_cons, Std.HashSet.length_toList, List.length_range,
    List.length_map, Cursor.onward, Cursor.length_along] at le
  exact le

theorem mem_insert {met : Met} {key other : Nat × Nat} :
    other ∈ met.insert key ↔ other = key ∨ other ∈ met := by
  rw [Std.HashSet.mem_insert, beq_iff_eq, eq_comm]

/-- A thread that comes to nothing is passed over. -/
theorem run_of_yields_none {n bound : Nat} {k : List Step} {c : Cursor} {m : List (Nat × Nat)}
    {r : Option (Cursor × List (Nat × Nat))} (searchable : Searchable points labels start)
    (h : Yields n k c m r) (none : r = none) (inside : Inside points k) (mem : c ∈ start.onward)
    (met : Met) (others : List Thread) :
    ∃ met', run bound met (⟨k, c, m⟩ :: others) = run bound met' others ∧
      Tried points labels start met met' := by
  induction h generalizing met others with
  | done => cases none
  | ended rest =>
    refine ⟨met, ?_, .refl met⟩
    rw [run, rest]
  | other rest off =>
    refine ⟨met, ?_, .refl met⟩
    rw [run, rest]
    simp [off]
  | @one n set k c m r s rest here on _ ih =>
    obtain ⟨met', run', tried⟩ :=
      ih none inside.tail (Cursor.past_mem_onward mem here) met others
    refine ⟨met', ?_, tried⟩
    rw [← run', run, here]
    simp [on]
  | missed off =>
    refine ⟨met, ?_, .refl met⟩
    rw [run]
    simp [off]
  | test on _ ih =>
    obtain ⟨met', run', tried⟩ := ih none inside.tail mem met others
    refine ⟨met', ?_, tried⟩
    rw [← run', run]
    simp [on]
  | mark _ ih =>
    obtain ⟨met', run', tried⟩ := ih none inside.tail mem met others
    refine ⟨met', ?_, tried⟩
    rw [← run', run]
  | first => cases none
  | @second n n' k label first second c m r choice h h' ih ih' =>
    rw [run_choice choice]
    split
    · exact ⟨met, rfl, .refl met⟩
    · obtain ⟨here, inside₁, inside₂⟩ := inside.choice choice
      obtain ⟨met₁, run₁, tried₁⟩ := ih rfl inside₁ mem (met.insert (label, c.offset))
        (⟨second, c, m⟩ :: others)
      obtain ⟨met₂, run₂, tried₂⟩ := ih' none inside₂ mem met₁ others
      have inserted : Tried points labels start met (met.insert (label, c.offset)) := by
        constructor
        · intro key hkey
          obtain rfl | hkey := mem_insert.1 hkey
          · exact .inr ⟨searchable.bounded _ here, c, mem, rfl⟩
          · exact .inl hkey
        · intro key hkey
          obtain rfl | hkey := mem_insert.1 hkey
          · exact .inr ⟨k, c, n + n' + 1, m, here, mem, rfl, none ▸ .second choice h h'⟩
          · exact .inl hkey
      exact ⟨met₂, run₁.trans run₂, (inserted.trans tried₁).trans tried₂⟩

/-- A choice on the way to a match has not been met before. -/
theorem Known.new {size : Nat} {met : Met} (searchable : Searchable points labels start)
    (known : Known points labels start size met) {k : List Step} {c : Cursor} {m : List (Nat × Nat)}
    {r : Cursor × List (Nat × Nat)} {label : Nat} (here : (label, k) ∈ points)
    (mem : c ∈ start.onward) (yields : Yields size k c m (some r)) :
    (label, c.offset) ∉ met := by
  intro hmet
  obtain ⟨k', c', n, m', inside, place, offset, yields'⟩ |
    ⟨k', c', n, m', r', inside, place, offset, yields', lt⟩ := known.tried _ hmet
  · cases searchable.functional label _ _ here inside
    cases Cursor.eq_of_offset searchable.wide mem place offset.symm
    exact absurd (yields.unique yields').2 (by simp)
  · cases searchable.functional label _ _ here inside
    cases Cursor.eq_of_offset searchable.wide mem place offset.symm
    exact absurd (yields.unique yields').1 (Nat.ne_of_lt lt)

/-- A thread that comes to a match comes to it with a memory too. -/
theorem run_of_yields_some {n : Nat} {k : List Step} {c : Cursor} {m : List (Nat × Nat)}
    {r : Option (Cursor × List (Nat × Nat))} (searchable : Searchable points labels start)
    (h : Yields n k c m r) {found : Cursor × List (Nat × Nat)} (some_ : r = some found)
    (inside : Inside points k) (mem : c ∈ start.onward) {met : Met}
    (known : Known points labels start n met) (others : List Thread) :
    (run (limit labels start) met (⟨k, c, m⟩ :: others)).1 = some ⟨[], found.1, found.2⟩ := by
  induction h generalizing met others with
  | done =>
    cases some_
    rw [run]
  | ended => cases some_
  | other => cases some_
  | @one n set k c m r s rest here on _ ih =>
    rw [run, here]
    simpa [on] using ih some_ inside.tail (Cursor.past_mem_onward mem here)
      (known.mono (Nat.le_succ _)) others
  | missed => cases some_
  | test on _ ih =>
    rw [run]
    simpa [on] using ih some_ inside.tail mem (known.mono (Nat.le_succ _)) others
  | mark _ ih =>
    rw [run]
    exact ih some_ inside.tail mem (known.mono (Nat.le_succ _)) others
  | @first n k label first second c m r choice h ih =>
    obtain ⟨here, inside₁, -⟩ := inside.choice choice
    have yields : Yields (n + 1) k c m (some r) := .first choice h
    have new := known.new searchable here mem yields
    have possible : Possible labels start (label, c.offset) :=
      ⟨searchable.bounded _ here, c, mem, rfl⟩
    have room := size_lt_limit known.possible new possible
    rw [run_choice choice, if_neg (by simp [new]; omega)]
    refine ih some_ inside₁ mem ⟨?_, ?_⟩ _
    · intro key hkey
      obtain rfl | hkey := mem_insert.1 hkey
      · exact possible
      · exact known.possible key hkey
    · intro key hkey
      obtain rfl | hkey := mem_insert.1 hkey
      · exact .inr ⟨k, c, n + 1, m, r, here, mem, rfl, yields, Nat.lt_succ_self _⟩
      · exact (known.mono (Nat.le_succ _)).tried key hkey
  | @second n n' k label first second c m r choice h h' ih ih' =>
    obtain ⟨here, inside₁, inside₂⟩ := inside.choice choice
    subst some_
    have yields : Yields (n + n' + 1) k c m (some found) := .second choice h h'
    have new := known.new searchable here mem yields
    have possible : Possible labels start (label, c.offset) :=
      ⟨searchable.bounded _ here, c, mem, rfl⟩
    have room := size_lt_limit known.possible new possible
    have inserted : Known points labels start n' (met.insert (label, c.offset)) := by
      constructor
      · intro key hkey
        obtain rfl | hkey := mem_insert.1 hkey
        · exact possible
        · exact known.possible key hkey
      · intro key hkey
        obtain rfl | hkey := mem_insert.1 hkey
        · exact .inr ⟨k, c, n + n' + 1, m, found, here, mem, rfl, yields, by omega⟩
        · exact (known.mono (by omega)).tried key hkey
    rw [run_choice choice, if_neg (by simp [new]; omega)]
    obtain ⟨met₁, run₁, tried₁⟩ := run_of_yields_none searchable h rfl inside₁ mem
      (met.insert (label, c.offset)) (⟨second, c, m⟩ :: others)
    rw [run₁]
    exact ih' rfl inside₂ mem (tried₁.known inserted) others

end Program

end Pattern

end Rulebook

import Rulebook.Proofs.Pattern.Preference

/-!
# What an expression takes first

`Expr.Munches` says that an expression, where certain characters follow, prefers to take a certain text,
and `Expr.Refuses` that it takes nothing there. Both depend on the characters that follow only as far as
the expression looks at them, and both are put together as the expression is: a choice takes what its
first alternative takes that is not refused, and a loop goes on as long as its body is not refused.
-/

namespace Rulebook

namespace Pattern

namespace Expr

/-- True of an expression that prefers a text where it is followed by others. -/
def Munches (e : Expr) (w rest : List Scalar) : Prop :=
  ∀ c : Cursor, c.rest = w ++ rest → (e.ends c).head? = some (c.advance w rest)

/-- True of an expression that takes nothing where certain characters follow. -/
def Refuses (e : Expr) (rest : List Scalar) : Prop := ∀ c : Cursor, c.rest = rest → e.ends c = []

variable {a b e : Expr} {w w' rest : List Scalar} {s : Scalar} {set : CharSet}

theorem head?_andThen {p q : Fan} {c d e : Cursor} (h : (p c).head? = some d)
    (h' : (q d).head? = some e) : (p.andThen q c).head? = some e := by
  obtain ⟨others, eq⟩ := List.head?_eq_some_iff.1 h
  rw [Fan.andThen, eq, List.flatMap_cons, List.head?_append, h', Option.some_or]

theorem head?_prefer {p q : Fan} {c d : Cursor} (h : (p c).head? = some d) :
    (Fan.prefer true p q c).head? = some d := by
  rw [Fan.prefer, if_pos rfl, List.head?_append, h, Option.some_or]

theorem head?_prefer_of_nil {p q : Fan} {c : Cursor} (h : p c = []) :
    (Fan.prefer true p q c).head? = (q c).head? := by
  rw [Fan.prefer, if_pos rfl, h, List.nil_append]

theorem munches_empty (rest : List Scalar) : empty.Munches [] rest := by
  intro c here
  subst here
  rfl

theorem munches_one (on : set.contains s.code = true) : (one set).Munches [s] rest := by
  intro c here
  rw [ends, Step.onto, here]
  simp [on, Cursor.past_eq_advance]

theorem refuses_one (off : set.contains s.code = false) : (one set).Refuses (s :: rest) := by
  intro c here
  rw [ends, Step.onto, here]
  simp [off]

theorem refuses_one_nil : (one set).Refuses [] := by
  intro c here
  rw [ends, Step.onto, here]

theorem Munches.cat (ha : a.Munches w (w' ++ rest)) (hb : b.Munches w' rest) :
    (Expr.cat a b).Munches (w ++ w') rest := by
  intro c here
  rw [List.append_assoc] at here
  have first := ha c here
  have second := hb (c.advance w (w' ++ rest)) (Cursor.rest_advance ..)
  rw [Cursor.advance_advance] at second
  exact head?_andThen first second

theorem Munches.left (ha : a.Munches w rest) : (alt a b).Munches w rest := fun c here =>
  head?_prefer (ha c here)

theorem Munches.right (ha : a.Refuses (w ++ rest)) (hb : b.Munches w rest) :
    (alt a b).Munches w rest := fun c here =>
  (head?_prefer_of_nil (ha c here)).trans (hb c here)

theorem Munches.opt (h : e.Munches w rest) : (Expr.opt true e).Munches w rest := fun c here =>
  head?_prefer (h c here)

theorem Refuses.opt (h : e.Refuses rest) : (Expr.opt true e).Munches [] rest := fun c here =>
  (head?_prefer_of_nil (h c here)).trans (munches_empty rest c here)

/-- A loop stops where its body is refused. -/
theorem Refuses.star (h : e.Refuses rest) (full : e.nullable = false) :
    (Expr.star true e).Munches [] rest := by
  intro c here
  rw [ends, (shrinks_ends full).star_eq]
  refine (head?_prefer_of_nil ?_).trans (munches_empty rest c here)
  rw [Fan.andThen, h c here, List.flatMap_nil]

/-- A loop goes on where its body takes something. -/
theorem Munches.star (h : e.Munches w (w' ++ rest)) (full : e.nullable = false)
    (more : (Expr.star true e).Munches w' rest) : (Expr.star true e).Munches (w ++ w') rest := by
  intro c here
  rw [ends, (shrinks_ends full).star_eq]
  exact head?_prefer (h.cat more c here)

theorem Munches.plus (h : e.Munches w (w' ++ rest)) (more : (Expr.star true e).Munches w' rest) :
    (Expr.plus true e).Munches (w ++ w') rest := fun c here => h.cat more c here

/-- Pieces that an expression takes one after another until it is refused. -/
inductive Repeats (e : Expr) (rest : List Scalar) : List (List Scalar) → Prop where
  | nil : e.Refuses rest → Repeats e rest []
  | cons {piece pieces} : e.Munches piece (pieces.flatten ++ rest) → Repeats e rest pieces →
      Repeats e rest (piece :: pieces)

theorem Repeats.star {pieces : List (List Scalar)} (h : e.Repeats rest pieces)
    (full : e.nullable = false) : (Expr.star true e).Munches pieces.flatten rest := by
  induction h with
  | nil stop => exact stop.star full
  | cons here _ ih => exact here.star full ih

/-- One character of a set after another, as far as there are any. -/
theorem repeats_one (on : ∀ s ∈ w, set.contains s.code = true)
    (off : ∀ s ∈ rest.head?, set.contains s.code = false) :
    (one set).Repeats rest (w.map fun s => [s]) := by
  induction w with
  | nil =>
    refine .nil ?_
    cases rest with
    | nil => exact refuses_one_nil
    | cons s rest => exact refuses_one (off s rfl)
  | cons s w ih =>
    obtain ⟨here, others⟩ := List.forall_mem_cons.1 on
    exact .cons (munches_one here) (ih others)

theorem Refuses.alt (ha : a.Refuses rest) (hb : b.Refuses rest) : (Expr.alt a b).Refuses rest :=
  fun c here => by rw [ends, Fan.prefer, if_pos rfl, ha c here, hb c here, List.nil_append]

theorem Refuses.cat (ha : a.Refuses rest) : (Expr.cat a b).Refuses rest := fun c here => by
  rw [ends, Fan.andThen, ha c here, List.flatMap_nil]

/-- What comes second is refused after everything that the first may take. -/
theorem refuses_cat (free : a.isFree = true)
    (second : ∀ w ∈ a.language, ∀ more, w ++ more = rest → b.Refuses more) :
    (Expr.cat a b).Refuses rest := by
  intro c here
  refine List.flatMap_eq_nil_iff.2 fun d mem => ?_
  obtain ⟨w, taken, split, -⟩ := (leads_of_free free).1 (leads_of_mem_ends mem)
  exact second w taken d.rest (split.symm.trans here) d rfl

@[simp] theorem munches_group (index : Nat) (name : Bytes) :
    (group index name e).Munches w rest ↔ e.Munches w rest := Iff.rfl

theorem Regroups.munches_iff (h : Regroups a b) : a.Munches w rest ↔ b.Munches w rest := by
  simp only [Munches, h.ends_eq]

theorem munches_concat_cons {es : List Expr} (h : e.Munches w (w' ++ rest))
    (more : (concat es).Munches w' rest) : (concat (e :: es)).Munches (w ++ w') rest :=
  (regroups_concat_cons e es).munches_iff.2 (h.cat more)

/-- A choice takes what the first alternative takes that is not refused. -/
theorem munches_choice {before after : List Expr} (refused : ∀ b ∈ before, b.Refuses (w ++ rest))
    (h : e.Munches w rest) : (choice (before ++ e :: after)).Munches w rest := by
  induction before with
  | nil =>
    cases after with
    | nil => exact h
    | cons => exact h.left
  | cons b before ih =>
    obtain ⟨here, others⟩ := List.forall_mem_cons.1 refused
    have later := ih others
    rw [List.cons_append, choice]
    · exact Munches.right here later
    · simp

/-- An expression without conditions refuses a text that starts with none of its texts. -/
theorem refuses_of_language (free : e.isFree = true)
    (none : ∀ w ∈ e.language, ∀ more, w ++ more ≠ rest) : e.Refuses rest := by
  intro c here
  refine List.eq_nil_iff_forall_not_mem.2 fun d mem => ?_
  obtain ⟨w, taken, split, -⟩ := (leads_of_free free).1 (leads_of_mem_ends mem)
  exact none w taken d.rest (split.symm.trans here)

/-- An expression without conditions takes the empty text if its form lets it. -/
theorem nil_mem_language (free : e.isFree = true) (null : e.nullable = true) : [] ∈ e.language := by
  have rounds {l : Language Scalar} {allowed : Nat → Prop} (n : Nat) (fine : allowed n)
      (none : n = 0 ∨ [] ∈ l) : [] ∈ multiples l allowed := by
    refine mem_multiples.2 ⟨List.replicate n [], by simpa using fine, by simp, fun piece mem => ?_⟩
    obtain ⟨some_round, rfl⟩ := List.mem_replicate.1 mem
    exact none.resolve_left some_round
  induction e with
  | empty => rfl
  | one => cases null
  | test => cases free
  | group _ _ _ ih => exact ih free null
  | cat a b ih ih' =>
    simp only [isFree, nullable, Bool.and_eq_true] at free null
    exact ⟨[], ih free.1 null.1, [], ih' free.2 null.2, rfl⟩
  | alt a b ih ih' =>
    simp only [isFree, nullable, Bool.and_eq_true, Bool.or_eq_true] at free null
    exact null.imp (ih free.1) (ih' free.2)
  | star => exact rounds 0 trivial (.inl rfl)
  | plus _ e ih => exact rounds 1 (Nat.le_refl 1) (.inr (ih free null))
  | opt => exact .inr rfl
  | times min max _ e ih =>
    simp only [isFree, nullable, Bool.or_eq_true, beq_iff_eq] at free null
    exact rounds min ⟨Nat.le_refl _, fun _ _ => Nat.le_max_left ..⟩ (null.imp_right (ih free))

theorem nullable_eq_false (free : e.isFree = true) (full : ∀ w ∈ e.language, w ≠ []) :
    e.nullable = false :=
  Bool.eq_false_iff.2 fun null => full [] (nil_mem_language free null) rfl

end Expr

end Pattern

end Rulebook

import Rulebook.Proofs.Pattern.Memory

/-!
# Alternatives

A choice between expressions is found where the leftmost of them is found, and as the first of those
that are found there (`Expr.best_find?`). The alternatives share a memory, but each has labels of
its own, so that the memory holds for each what it would have met alone (`Recalls`). At one place the
alternatives are tried in order (`runs_choice`), and the search goes on only if all of them come
to nothing (`seeks_choice`).
-/

namespace Rulebook

namespace Pattern

/-! ### Alternatives at a place -/

/-- What an expression comes to alone at a place, after what it has met before. -/
structure Attempt (c : Cursor) where
  expr : Expr
  before : Set (Nat × Nat)
  result : Option Cursor
  after : Set (Nat × Nat)
  run : Runs before [((expr.build 0).1, c)] result after

/-- True of a memory that holds what each of several expressions has met alone, with their labels
    one after another from a number on. -/
inductive Recalls (memory : Set (Nat × Nat)) : Nat → List (Expr × Set (Nat × Nat)) → Prop where
  | nil {n} : Recalls memory n []
  | cons {n e met others} : Agree n e.labels met memory → Recalls memory (n + e.labels) others →
      Recalls memory n ((e, met) :: others)

/-- How many labels several expressions have together. -/
def labelsOf : List Expr → Nat
  | [] => 0
  | e :: es => e.labels + labelsOf es

/-- The steps of a choice between expressions without their groups, and the first label left. -/
def choiceFrom (es : List Expr) (n : Nat) : List Step × Nat :=
  (Expr.choice (es.map Expr.ungrouped)).build n

theorem choiceFrom_singleton (e : Expr) (n : Nat) :
    choiceFrom [e] n = (e.bareFrom n, n + e.labels) :=
  Prod.ext rfl (e.bareFrom_eq n).2

/-- The label of the choice itself comes after those of the alternatives. -/
theorem choiceFrom_cons (e : Expr) {es : List Expr} (several : es ≠ []) (n : Nat) :
    choiceFrom (e :: es) n =
      ([.fork (choiceFrom es (n + e.labels)).2 (e.bareFrom n) (choiceFrom es (n + e.labels)).1],
        (choiceFrom es (n + e.labels)).2 + 1) := by
  obtain ⟨d, es, rfl⟩ := List.exists_cons_of_ne_nil several
  have last := (e.bareFrom_eq n).2
  simp only [choiceFrom, List.map_cons, Expr.choice, Expr.build, Builder.choice, last]
  rfl

theorem le_choiceFrom {es : List Expr} (several : es ≠ []) (n : Nat) :
    n + labelsOf es ≤ (choiceFrom es n).2 := by
  induction es generalizing n with
  | nil => exact absurd rfl several
  | cons e es ih =>
    cases es with
    | nil => simp [choiceFrom_singleton, labelsOf]
    | cons d es =>
      have later := ih (by simp) (n + e.labels)
      rw [choiceFrom_cons e (by simp)]
      simp only [labelsOf] at later ⊢
      omega

/-- Memories that agree below a label recall the same, if all labels are below it. -/
theorem Recalls.congr {memory memory' : Set (Nat × Nat)} {n : Nat}
    {alternatives : List (Expr × Set (Nat × Nat))} (h : Recalls memory n alternatives)
    (same : ∀ label offset, n ≤ label → label < n + labelsOf (alternatives.map Prod.fst) →
      ((label, offset) ∈ memory ↔ (label, offset) ∈ memory')) :
    Recalls memory' n alternatives := by
  induction h with
  | nil => exact .nil
  | @cons n e met others agree _ ih =>
    simp only [labelsOf, List.map_cons] at same ih
    refine .cons (fun label offset low => ?_) (ih fun label offset high low => ?_)
    · rw [agree label offset low]
      exact same _ _ (by omega) (by omega)
    · exact same _ _ (by omega) (by omega)

/-- What a choice comes to after one of its alternatives has come to nothing. -/
structure Spent (c : Cursor) (n high : Nat) (memory memory' : Set (Nat × Nat)) : Prop where
  below : ∀ label offset, label < n → ((label, offset) ∈ memory ↔ (label, offset) ∈ memory')
  above : ∀ label offset, high ≤ label → (label, offset) ∈ memory' →
    (label, offset) ∈ memory ∨ offset = c.offset

variable {c : Cursor}

def Attempt.start (a : Attempt c) : Expr × Set (Nat × Nat) := (a.expr, a.before)

def Attempt.finish (a : Attempt c) : Expr × Set (Nat × Nat) := (a.expr, a.after)

/-- A single alternative comes to what it comes to alone. -/
theorem runs_alone (a : Attempt c) {n : Nat} {memory : Set (Nat × Nat)}
    (agree : Agree n a.expr.labels a.before memory) :
    ∃ memory', Runs memory [(a.expr.bareFrom n, c)] a.result memory' ∧
      (a.result = none →
        Recalls memory' n [a.finish] ∧ Spent c n (n + a.expr.labels) memory memory') := by
  have beside := a.expr.beside_of_runs a.run agree []
  cases result : a.result with
  | some d =>
    rw [result] at beside
    obtain ⟨memory', run⟩ := beside.some d rfl
    exact ⟨memory', run, fun missed => absurd missed (Option.some_ne_none d)⟩
  | none =>
    rw [result] at beside
    obtain ⟨memory', agree', same, later⟩ := beside.none rfl
    refine ⟨memory', later _ _ .spent, fun _ => ⟨.cons agree' .nil, ?_, ?_⟩⟩
    · exact fun label offset low => same label offset (.inl low)
    · intro label offset high mem
      exact .inl ((same label offset (.inr (by omega))).2 mem)

/-- The label of a choice adds to what its first alternative and then the others leave behind. -/
theorem Spent.fork {n k high label : Nat} {memory memory₁ memory₂ : Set (Nat × Nat)}
    (same : SameBeside n k (insert (label, c.offset) memory) memory₁)
    (low : n ≤ label) (beyond : n + k ≤ high) (spent : Spent c (n + k) high memory₁ memory₂) :
    Spent c n high memory memory₂ where
  below l offset lower := by
    have other : (l, offset) ≠ (label, c.offset) := by
      intro equal
      have := congrArg Prod.fst equal
      omega
    rw [← spent.below l offset (by omega), ← same l offset (.inl lower), Set.mem_insert_iff,
      or_iff_right other]
  above l offset upper mem := by
    rcases spent.above l offset upper mem with mem | here
    · rw [← same l offset (.inr (by omega)), Set.mem_insert_iff] at mem
      rcases mem with equal | mem
      · exact .inr (congrArg Prod.snd equal)
      · exact .inl mem
    · exact .inr here

/-- A choice comes to what the first of its alternatives comes to that comes to anything. -/
theorem runs_choice {attempts : List (Attempt c)} (several : attempts ≠ []) {n : Nat}
    {memory : Set (Nat × Nat)} (recalls : Recalls memory n (attempts.map Attempt.start))
    (unmet : ∀ label, n + labelsOf (attempts.map Attempt.expr) ≤ label →
      label < (choiceFrom (attempts.map Attempt.expr) n).2 → (label, c.offset) ∉ memory) :
    ∃ memory', Runs memory [((choiceFrom (attempts.map Attempt.expr) n).1, c)]
        (attempts.findSome? Attempt.result) memory' ∧
      (attempts.findSome? Attempt.result = none →
        Recalls memory' n (attempts.map Attempt.finish) ∧
          Spent c n (n + labelsOf (attempts.map Attempt.expr)) memory memory') := by
  induction attempts generalizing n memory with
  | nil => exact absurd rfl several
  | cons a others ih =>
    by_cases alone : others = []
    · subst alone
      obtain _ | ⟨agree, -⟩ := recalls
      simpa only [List.map_cons, List.map_nil, choiceFrom_singleton, List.findSome?_singleton,
        labelsOf, Nat.add_zero] using runs_alone a agree
    · have more : others.map Attempt.expr ≠ [] := by simpa using alone
      have total : n + labelsOf ((a :: others).map Attempt.expr) =
          n + a.expr.labels + labelsOf (others.map Attempt.expr) := by
        simp only [labelsOf, List.map_cons]
        omega
      have starts : (others.map Attempt.start).map Prod.fst = others.map Attempt.expr := by
        simp [Attempt.start]
      have room := le_choiceFrom more (n + a.expr.labels)
      rw [total] at unmet ⊢
      rw [List.map_cons, choiceFrom_cons _ more] at unmet ⊢
      generalize entry : choiceFrom (others.map Attempt.expr) (n + a.expr.labels) = rest
        at room unmet ⊢
      have new := unmet rest.2 room (Nat.lt_succ_self _)
      -- the label of the choice is beyond those of the alternatives
      have inserted (label offset : Nat) (other : label ≠ rest.2) :
          ((label, offset) ∈ memory ↔ (label, offset) ∈ insert (rest.2, c.offset) memory) := by
        simp [other]
      have recalls' : Recalls (insert (rest.2, c.offset) memory) n
          ((a :: others).map Attempt.start) := by
        refine recalls.congr fun label offset _ low => inserted label offset ?_
        rw [List.map_cons, List.map_cons, starts] at low
        have := total ▸ low
        omega
      obtain _ | ⟨agree, recalls'⟩ := recalls'
      have choice : Step.choice? [.fork rest.2 (a.expr.bareFrom n) rest.1] =
          some (rest.2, a.expr.bareFrom n, rest.1) := by
        simp [Step.choice?]
      have beside := a.expr.beside_of_runs a.run agree [(rest.1, c)]
      rw [List.findSome?_cons]
      cases result : a.result with
      | some d =>
        rw [result] at beside
        obtain ⟨memory', run⟩ := beside.some d rfl
        exact ⟨memory', .choice choice new run, fun missed => absurd missed (Option.some_ne_none d)⟩
      | none =>
        rw [result] at beside
        obtain ⟨memory₁, agree₁, same₁, later⟩ := beside.none rfl
        change Recalls _ (n + a.expr.labels) (others.map Attempt.start) at recalls'
        have recalls₁ : Recalls memory₁ (n + a.expr.labels) (others.map Attempt.start) :=
          recalls'.congr fun label offset high _ => same₁ label offset (.inr (by omega))
        have unmet₁ : ∀ label, n + a.expr.labels + labelsOf (others.map Attempt.expr) ≤ label →
            label < rest.2 → (label, c.offset) ∉ memory₁ := by
          intro label high low
          rw [← same₁ label c.offset (.inr (by omega)), ← inserted label c.offset (by omega)]
          exact unmet label high (by omega)
        obtain ⟨memory₂, run, spent⟩ := ih alone recalls₁ (by rwa [entry])
        rw [entry] at run
        refine ⟨memory₂, .choice choice new (later _ _ run), fun nothing => ?_⟩
        obtain ⟨recalls₂, below, above⟩ := spent nothing
        have whole : Spent c n (n + a.expr.labels + labelsOf (others.map Attempt.expr)) memory memory₂ :=
          Spent.fork same₁ (by omega) (by omega) ⟨below, above⟩
        refine ⟨.cons (fun label offset low => ?_) recalls₂, whole⟩
        rw [agree₁ label offset low]
        exact below _ _ (by omega)

/-! ### Alternatives in a text -/

/-- What an expression is found as alone from a place on. -/
structure Quest (c : Cursor) where
  expr : Expr
  before : Set (Nat × Nat)
  result : Option (Nat × Cursor)
  seeks : Seeks (expr.build 0).1 before c result

def Quest.start (q : Quest c) : Expr × Set (Nat × Nat) := (q.expr, q.before)

/-- True of the leftmost of several matches, and of the first of them if there is more than one.
    Each match is told by where it starts and something more. -/
def IsFirst {α : Type} (results : List (Option (Nat × α))) (i : Nat) (found : Nat × α) : Prop :=
  results[i]? = some (some found) ∧
    ∀ j other, results[j]? = some (some other) → found.1 ≤ other.1 ∧ (j < i → found.1 < other.1)

/-- What is to be found given what is found of each alternative: the leftmost match, and nothing
    only if there is none. -/
structure Best {α : Type} (results : List (Option (Nat × α))) (result : Option (Nat × α)) :
    Prop where
  none : result = none → ∀ r ∈ results, r = none
  some : ∀ found, result = some found → ∃ i, IsFirst results i found

theorem Seeks.offset_le {k : List Step} {met : Set (Nat × Nat)} {r : Option (Nat × Cursor)}
    (h : Seeks k met c r) : ∀ found, r = some found → c.offset ≤ found.1 := by
  induction h with
  | here =>
    rintro _ ⟨⟩
    exact Nat.le_refl _
  | ended => nofun
  | later _ _ _ ih => exact fun found same => Nat.le_trans (Nat.le_add_right ..) (ih found same)

/-- How an attempt at a place bears on the search from the place on. -/
def Attempt.Opens (a : Attempt c) (q : Quest c) : Prop :=
  a.start = q.start ∧ match a.result with
    | some d => q.result = some (c.offset, d)
    | none =>
        match c.rest with
        | [] => q.result = none
        | s :: rest => Seeks (q.expr.build 0).1 a.after (c.past s rest) q.result

theorem Quest.exists_attempt (q : Quest c) : ∃ a : Attempt c, a.Opens q := by
  obtain ⟨expr, before, result, seeks⟩ := q
  cases seeks with
  | @here _ met' _ d run => exact ⟨⟨expr, before, some d, met', run⟩, rfl, rfl⟩
  | @ended _ met' _ run last =>
    refine ⟨⟨expr, before, none, met', run⟩, rfl, ?_⟩
    simp only [last]
  | @later _ met' _ s rest _ run more seeks =>
    refine ⟨⟨expr, before, none, met', run⟩, rfl, ?_⟩
    simp only [more]
    exact seeks

theorem exists_attempts (quests : List (Quest c)) :
    ∃ attempts, List.Forall₂ Attempt.Opens attempts quests := by
  induction quests with
  | nil => exact ⟨[], .nil⟩
  | cons q quests ih =>
    obtain ⟨a, opens⟩ := q.exists_attempt
    obtain ⟨attempts, rest⟩ := ih
    exact ⟨a :: attempts, .cons opens rest⟩

section

variable {attempts : List (Attempt c)} {quests : List (Quest c)}
  (opens : List.Forall₂ Attempt.Opens attempts quests)

include opens

theorem map_start_of_opens : attempts.map Attempt.start = quests.map Quest.start := by
  induction opens with
  | nil => rfl
  | cons here _ ih => rw [List.map_cons, List.map_cons, here.1, ih]

theorem map_expr_of_opens : attempts.map Attempt.expr = quests.map Quest.expr := by
  have starts := congrArg (List.map Prod.fst) (map_start_of_opens opens)
  rw [List.map_map, List.map_map] at starts
  exact starts

theorem getElem?_of_opens (j : Nat) :
    (attempts[j]? = none ∧ quests[j]? = none) ∨
      ∃ a q, attempts[j]? = some a ∧ quests[j]? = some q ∧ a.Opens q := by
  induction opens generalizing j with
  | nil => exact .inl ⟨rfl, rfl⟩
  | @cons a q _ _ here _ ih =>
    cases j with
    | zero => exact .inr ⟨a, q, rfl, rfl, here⟩
    | succ j => simpa using ih j

/-- The first alternative that comes to something at a place is the one to be found. -/
theorem best_of_some (wide : ∀ s ∈ c.rest, 0 < s.width) {d : Cursor}
    (first : attempts.findSome? Attempt.result = some d) :
    Best (quests.map Quest.result) (some (c.offset, d)) := by
  refine ⟨nofun, ?_⟩
  rintro _ ⟨⟩
  obtain ⟨others, a, more, split, found, vain⟩ := List.findSome?_eq_some_iff.1 first
  refine ⟨others.length, ?_, fun j other result => ?_⟩
  · obtain ⟨none, -⟩ | ⟨a', q, here, there, -, result⟩ := getElem?_of_opens opens others.length
    · simp [split] at none
    · simp only [split, List.getElem?_append_right (Nat.le_refl _),
        Nat.sub_self, List.getElem?_cons_zero, Option.some.injEq] at here
      subst here
      simp only [found] at result
      rw [List.getElem?_map, there, Option.map_some, result]
  · obtain ⟨-, none⟩ | ⟨a', q, here, there, -, open_⟩ := getElem?_of_opens opens j
    · simp [none] at result
    · rw [List.getElem?_map, there, Option.map_some, Option.some.injEq] at result
      refine ⟨q.seeks.offset_le other result, fun earlier => ?_⟩
      have mem : a' ∈ others := by
        rw [split, List.getElem?_append_left earlier] at here
        exact List.mem_of_getElem? here
      simp only [vain a' mem] at open_
      split at open_
      · cases open_.symm.trans result
      · rename_i s rest more
        have wider := wide s (by simp [more])
        have := open_.offset_le other result
        simp only [Cursor.past] at this
        omega

/-- If none of the alternatives comes to anything at a place, each is to be found further on. -/
theorem exists_quests {s : Scalar} {rest : List Scalar} (more : c.rest = s :: rest)
    (vain : attempts.findSome? Attempt.result = none) :
    ∃ later : List (Quest (c.past s rest)), later.map Quest.start = attempts.map Attempt.finish ∧
      later.map Quest.expr = quests.map Quest.expr ∧
      later.map Quest.result = quests.map Quest.result := by
  rw [List.findSome?_eq_none_iff] at vain
  induction opens with
  | nil => exact ⟨[], rfl, rfl, rfl⟩
  | @cons a q attempts quests here _ ih =>
    obtain ⟨failed, others⟩ := List.forall_mem_cons.1 vain
    obtain ⟨later, starts, exprs, results⟩ := ih others
    obtain ⟨start, seeks⟩ := here
    simp only [failed, more] at seeks
    have expr : q.expr = a.expr := (congrArg Prod.fst start).symm
    exact ⟨⟨a.expr, a.after, q.result, expr ▸ seeks⟩ :: later,
      by simp [starts, Quest.start, Attempt.finish], by simp [exprs, expr], by simp [results]⟩

/-- The alternatives at a place, after the places before it. -/
theorem runs_attempts (several : quests ≠ []) {n : Nat} {memory : Set (Nat × Nat)}
    (recalls : Recalls memory n (quests.map Quest.start))
    (unmet : ∀ label offset, n + labelsOf (quests.map Quest.expr) ≤ label →
      (label, offset) ∈ memory → offset < c.offset) :
    ∃ memory', Runs memory [((choiceFrom (quests.map Quest.expr) n).1, c)]
        (attempts.findSome? Attempt.result) memory' ∧
      (attempts.findSome? Attempt.result = none →
        Recalls memory' n (attempts.map Attempt.finish) ∧
          ∀ label offset, n + labelsOf (quests.map Quest.expr) ≤ label →
            (label, offset) ∈ memory' → (label, offset) ∈ memory ∨ offset = c.offset) := by
  rw [← map_expr_of_opens opens] at unmet ⊢
  rw [← map_start_of_opens opens] at recalls
  have several' : attempts ≠ [] := by
    rintro rfl
    cases opens
    exact several rfl
  obtain ⟨memory', run, spent⟩ := runs_choice several' recalls fun label high _ mem =>
    Nat.lt_irrefl _ (unmet label c.offset high mem)
  exact ⟨memory', run, fun nothing => ⟨(spent nothing).1, (spent nothing).2.above⟩⟩

theorem none_of_ended (last : c.rest = []) (vain : attempts.findSome? Attempt.result = none) :
    Best (quests.map Quest.result) none := by
  refine ⟨fun _ r mem => ?_, nofun⟩
  rw [List.findSome?_eq_none_iff] at vain
  induction opens with
  | nil => cases mem
  | @cons a q attempts quests here _ ih =>
    obtain ⟨failed, others⟩ := List.forall_mem_cons.1 vain
    have nothing := here.2
    simp only [failed, last] at nothing
    obtain rfl | mem := List.mem_cons.1 mem
    · exact nothing
    · exact ih others mem

end

/-- A choice between expressions is found where the leftmost of them is found, and as the first of
    them that is found there. -/
theorem seeks_choice {n : Nat} (wide : ∀ s ∈ c.rest, 0 < s.width) {quests : List (Quest c)}
    (several : quests ≠ []) {memory : Set (Nat × Nat)}
    (recalls : Recalls memory n (quests.map Quest.start))
    (unmet : ∀ label offset, n + labelsOf (quests.map Quest.expr) ≤ label →
      (label, offset) ∈ memory → offset < c.offset) :
    ∃ result, Seeks (choiceFrom (quests.map Quest.expr) n).1 memory c result ∧
      Best (quests.map Quest.result) result := by
  induction more : c.rest generalizing c memory with
  | nil =>
    obtain ⟨attempts, opens⟩ := exists_attempts quests
    obtain ⟨memory', run, -⟩ := runs_attempts opens several recalls unmet
    cases result : attempts.findSome? Attempt.result with
    | some d => exact ⟨_, .here (result ▸ run), best_of_some opens wide result⟩
    | none => exact ⟨none, .ended (result ▸ run) more, none_of_ended opens more result⟩
  | cons s rest ih =>
    obtain ⟨attempts, opens⟩ := exists_attempts quests
    obtain ⟨memory', run, spent⟩ := runs_attempts opens several recalls unmet
    cases result : attempts.findSome? Attempt.result with
    | some d => exact ⟨_, .here (result ▸ run), best_of_some opens wide result⟩
    | none =>
      obtain ⟨recalls', above⟩ := spent result
      obtain ⟨later, starts, exprs, results⟩ := exists_quests opens more result
      have wider := wide s (by simp [more])
      have wide' : ∀ x ∈ (c.past s rest).rest, 0 < x.width := fun x mem =>
        wide x (more ▸ List.mem_cons_of_mem _ mem)
      have several' : later ≠ [] := by
        rintro rfl
        exact several (List.map_eq_nil_iff.1 exprs.symm)
      have unmet' : ∀ label offset, n + labelsOf (later.map Quest.expr) ≤ label →
          (label, offset) ∈ memory' → offset < (c.past s rest).offset := by
        intro label offset high mem
        rw [exprs] at high
        obtain mem | rfl := above label offset high mem
        · exact Nat.lt_add_right _ (unmet label offset high mem)
        · exact Nat.lt_add_of_pos_right wider
      obtain ⟨found, seeks, best⟩ := ih wide' several' (starts ▸ recalls') unmet' rfl
      rw [exprs] at seeks
      exact ⟨found, .later (result ▸ run) more seeks, results ▸ best⟩

theorem recalls_nothing (es : List Expr) (n : Nat) : Recalls ∅ n (es.map fun e => (e, ∅)) := by
  induction es generalizing n with
  | nil => exact .nil
  | cons e es ih => exact .cons (fun _ _ _ => Iff.rfl) (ih _)

/-- What is found of an expression that is a choice but for its groups. -/
theorem Expr.best_find? {e : Expr} {es : List Expr} (several : es ≠ [])
    (same : Regroups e.ungrouped (choice (es.map ungrouped))) {c : Cursor}
    (wide : ∀ s ∈ c.rest, 0 < s.width) :
    Best (es.map fun e => ((Program.ofExpr e).find? c).map Program.Found.extent)
      (((Program.ofExpr e).find? c).map Program.Found.extent) := by
  let quests := es.map fun e => (⟨e, ∅, _, Program.seeks_find? e wide⟩ : Quest c)
  have starts : quests.map Quest.start = es.map fun e => (e, ∅) := List.map_map
  have exprs : quests.map Quest.expr = es := List.map_map.trans (List.map_id es)
  have results : quests.map Quest.result =
      es.map fun e => ((Program.ofExpr e).find? c).map Program.Found.extent := List.map_map
  have some_quests : quests ≠ [] := by simpa [quests] using several
  have recalls : Recalls ∅ 0 (quests.map Quest.start) := starts ▸ recalls_nothing es 0
  have unmet : ∀ label offset, 0 + labelsOf (quests.map Quest.expr) ≤ label →
      (label, offset) ∈ (∅ : Set (Nat × Nat)) → offset < c.offset := fun _ _ _ mem =>
    absurd mem (Set.notMem_empty _)
  obtain ⟨result, seeks, best⟩ := seeks_choice wide some_quests recalls unmet
  have whole := Program.seeks_bareFrom_find? e wide
  rw [exprs, choiceFrom, ← same.build_eq] at seeks
  rw [← results, whole.unique seeks]
  exact best

end Pattern

end Rulebook

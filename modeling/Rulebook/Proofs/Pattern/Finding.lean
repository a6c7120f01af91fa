import Rulebook.Pattern.Regex
import Rulebook.Proofs.Pattern.Path
import Rulebook.Proofs.Text.Scalar

/-!
# Matches in a text

`Program.find?` finds the leftmost place from which there is a path, and nothing only if there is no
such place (`find?_spec`). `Program.findAll` finds matches in order: each starts at or after the end
of the one before, and an empty match never starts right at that end (`findAll_inOrder`).
-/

namespace Rulebook

namespace Pattern

/-! ### Places of a text -/

namespace Cursor

/-- The place after some characters. -/
def advance (c : Cursor) (taken rest : List Scalar) : Cursor :=
  ⟨(taken.getLast?.map Scalar.char).or c.before, c.offset + (Bytes.ofScalars taken).length, rest⟩

@[simp] theorem rest_advance (c : Cursor) (taken rest : List Scalar) :
    (c.advance taken rest).rest = rest := rfl

@[simp] theorem offset_advance (c : Cursor) (taken rest : List Scalar) :
    (c.advance taken rest).offset = c.offset + (Bytes.ofScalars taken).length := rfl

@[simp] theorem advance_nil (c : Cursor) : c.advance [] c.rest = c := rfl

theorem advance_cons (c : Cursor) (s : Scalar) (taken rest : List Scalar) :
    c.advance (s :: taken) rest = (c.past s (taken ++ rest)).advance taken rest := by
  simp only [advance, past, Cursor.mk.injEq, and_true]
  constructor
  · cases taken with
    | nil => rfl
    | cons t taken =>
      rw [List.getLast?_cons_cons]
      cases h : (t :: taken).getLast? with
      | none => simp at h
      | some last => rfl
  · simp [Scalar.width, Nat.add_assoc]

theorem past_eq_advance (c : Cursor) (s : Scalar) (rest : List Scalar) :
    c.past s rest = c.advance [s] rest := by
  simp [advance, past, Scalar.width]

theorem advance_advance (c : Cursor) (first second rest : List Scalar) :
    (c.advance first (second ++ rest)).advance second rest = c.advance (first ++ second) rest := by
  induction first generalizing c with
  | nil => simp [advance]
  | cons s first ih => rw [advance_cons, List.cons_append, advance_cons, ih, List.append_assoc]

theorem mem_along {d : Cursor} {before : Option Char} {offset : Nat} {xs : List Scalar} :
    d ∈ along before offset xs ↔
      ∃ taken, xs = taken ++ d.rest ∧ d = (⟨before, offset, xs⟩ : Cursor).advance taken d.rest := by
  induction xs generalizing before offset with
  | nil =>
    rw [along, List.mem_singleton]
    constructor
    · rintro rfl
      exact ⟨[], rfl, rfl⟩
    · rintro ⟨taken, split, eq⟩
      obtain ⟨rfl, none⟩ := List.append_eq_nil_iff.1 split.symm
      rw [eq, none]
      rfl
  | cons x xs ih =>
    rw [along, List.mem_cons, ih]
    constructor
    · rintro (rfl | ⟨taken, rfl, eq⟩)
      · exact ⟨[], rfl, rfl⟩
      · refine ⟨x :: taken, rfl, ?_⟩
        rw [advance_cons]
        exact eq
    · rintro ⟨_ | ⟨y, taken⟩, split, eq⟩
      · left
        rw [eq, ← List.nil_append d.rest, ← split]
        rfl
      · right
        obtain ⟨rfl, rfl⟩ := List.cons.inj split
        refine ⟨taken, rfl, ?_⟩
        rw [advance_cons] at eq
        exact eq

/-- A place further on is the place after some of the characters that follow. -/
theorem mem_onward {c d : Cursor} :
    d ∈ c.onward ↔ ∃ taken, c.rest = taken ++ d.rest ∧ d = c.advance taken d.rest := mem_along

theorem advance_mem_onward {c : Cursor} {taken rest : List Scalar} (h : c.rest = taken ++ rest) :
    c.advance taken rest ∈ c.onward := mem_onward.2 ⟨taken, h, rfl⟩

theorem offset_le_of_onward {c d : Cursor} (h : d ∈ c.onward) : c.offset ≤ d.offset :=
  le_of_mem_along _ _ _ h

theorem onward_trans {c d e : Cursor} (h : d ∈ c.onward) (h' : e ∈ d.onward) : e ∈ c.onward := by
  obtain ⟨taken, split, eq⟩ := mem_onward.1 h
  obtain ⟨more, split', eq'⟩ := mem_onward.1 h'
  refine mem_onward.2 ⟨taken ++ more, by rw [split, split', List.append_assoc], ?_⟩
  rw [eq', eq, split', advance_advance]
  rfl

/-- The bytes before a place and those after it are all bytes of the text. -/
theorem offset_add_length {text : Bytes} {c : Cursor} (h : c ∈ (Cursor.start text).onward) :
    c.offset + (Bytes.ofScalars c.rest).length = text.length := by
  obtain ⟨taken, split, eq⟩ := mem_onward.1 h
  have whole := congrArg (fun l => (Bytes.ofScalars l).length) split
  simp only [start, Bytes.ofScalars_scalars, Bytes.ofScalars_append, List.length_append] at whole
  rw [whole, eq]
  simp [start]

end Cursor

theorem wide_scalars (text : Bytes) : ∀ s ∈ text.scalars, 0 < s.width := by
  intro s mem
  obtain ⟨before, after, split⟩ := List.append_of_mem mem
  have legible : Bytes.Legible (s :: after) := by
    have whole := Bytes.legible_scalars text
    rw [split] at whole
    exact Bytes.legible_of_append_right whole
  obtain ⟨b, more, bytes, -⟩ := Bytes.legible_cons legible
  simp [Scalar.width, bytes]

namespace Path

variable {n : Nat} {k : List Step} {c d : Cursor} {m : Marks}

theorem mem_onward (h : Path n k c d m) : d ∈ c.onward := by
  induction h with
  | done => exact Cursor.self_mem_onward _
  | one here _ _ ih =>
    exact Cursor.onward_trans (Cursor.past_mem_onward (Cursor.self_mem_onward _) here) ih
  | test _ _ ih => exact ih
  | mark _ ih => exact ih
  | first _ _ ih => exact ih
  | second _ _ ih => exact ih

end Path

/-! ### The leftmost match -/

namespace Program

/-- True if a program has a path from a place to another. -/
def Reaches (p : Program) (c d : Cursor) (m : Marks) : Prop := ∃ n, Path n p.steps c d m

theorem Reaches.mem_onward {p : Program} {c d : Cursor} {m : Marks} (h : p.Reaches c d m) :
    d ∈ c.onward := h.elim fun _ path => path.mem_onward

/-- True of a match that starts at a place. -/
structure MatchAt (p : Program) (c : Cursor) (f : Found) : Prop where
  start : f.start = c.offset
  path : p.Reaches c f.stop f.marks

/-- What is found from a place on: the leftmost match, or nothing if there is none. -/
def Spec (p : Program) (c : Cursor) : Option Found → Prop
  | none => ∀ d ∈ c.onward, ∀ e m, ¬ p.Reaches d e m
  | some f => ∃ d ∈ c.onward, p.MatchAt d f ∧
      ∀ d' ∈ c.onward, d'.offset < d.offset → ∀ e m, ¬ p.Reaches d' e m

variable {p : Program}

/-- What is found by the thread that starts at a place is a match there. -/
theorem matchAt_of_run {bound : Nat} {met met' : Met} {c : Cursor} {t : Thread}
    (h : run bound met [⟨p.steps, c, []⟩] = (some t, met')) :
    p.MatchAt c ⟨c.offset, t.place, t.marks⟩ := by
  obtain ⟨thread, mem, n, m, path, marks⟩ := endOf_run (congrArg Prod.fst h)
  cases List.mem_singleton.1 mem
  rw [List.append_nil] at marks
  exact ⟨rfl, n, marks ▸ path⟩

/-- Whatever is found is a match at a place further on. -/
theorem matchAt_of_findFrom {bound : Nat} {met : Met} {before : Option Char} {offset : Nat}
    {rest : List Scalar} {f : Found} (h : findFrom p bound met before offset rest = some f) :
    ∃ d ∈ Cursor.along before offset rest, p.MatchAt d f := by
  induction rest generalizing met before offset with
  | nil =>
    rw [findFrom] at h
    split at h
    · cases h
      exact ⟨_, List.mem_singleton_self _, matchAt_of_run ‹_›⟩
    · cases h
  | cons s rest ih =>
    rw [findFrom] at h
    split at h
    · cases h
      exact ⟨_, List.mem_cons_self .., matchAt_of_run ‹_›⟩
    · obtain ⟨d, mem, found⟩ := ih h
      exact ⟨d, List.mem_cons_of_mem _ mem, found⟩

theorem matchAt_of_find? {c : Cursor} {f : Found} (h : p.find? c = some f) :
    ∃ d ∈ c.onward, p.MatchAt d f := matchAt_of_findFrom h

/-- A match at the place where the search starts is the leftmost one. -/
theorem spec_here {c : Cursor} {f : Found} (h : p.MatchAt c f) : p.Spec c (some f) :=
  ⟨c, c.self_mem_onward, h, fun _ mem lt =>
    absurd (Cursor.offset_le_of_onward mem) (Nat.not_le.2 lt)⟩

/-- If there is no match at a place, the leftmost one is found after the next character. -/
theorem spec_cons {before : Option Char} {offset : Nat} {s : Scalar} {rest : List Scalar}
    {result : Option Found} (here : ∀ e m, ¬ p.Reaches ⟨before, offset, s :: rest⟩ e m)
    (later : p.Spec ⟨some s.char, offset + s.width, rest⟩ result) :
    p.Spec ⟨before, offset, s :: rest⟩ result := by
  cases result with
  | none =>
    intro d mem
    obtain rfl | mem := List.mem_cons.1 mem
    · exact here
    · exact later d mem
  | some f =>
    obtain ⟨d, mem, found, first⟩ := later
    refine ⟨d, List.mem_cons_of_mem _ mem, found, fun d' mem' lt => ?_⟩
    obtain rfl | mem' := List.mem_cons.1 mem'
    · exact here
    · exact first d' mem' lt

section

variable {points : List (Nat × List Step)} {start : Cursor}
  (searchable : Searchable points p.labels start) (inside : Inside points p.steps)

include searchable inside

theorem none_of_run {met met' : Met} (pending : Pending points p.labels start met []) {c : Cursor}
    (mem : c ∈ start.onward)
    (h : run (limit p.labels start) met [⟨p.steps, c, []⟩] = (none, met')) :
    Pending points p.labels start met' [] ∧ ∀ e m, ¬ p.Reaches c e m := by
  have ready : Pending points p.labels start met [⟨p.steps, c, []⟩] :=
    pending.next (fun n ends => absurd ends (not_ends_nil n)) (by simp [inside, mem])
  obtain ⟨after, failed⟩ := run_none searchable ready h
  exact ⟨after, fun e m ⟨n, path⟩ =>
    failed n ⟨_, List.mem_singleton_self _, n, Nat.le_refl _, e, m, path⟩⟩

/-- The search from a place on, after all places before it have been tried in vain. -/
theorem findFrom_spec {met : Met} (pending : Pending points p.labels start met [])
    {before : Option Char} {offset : Nat} {rest : List Scalar}
    (mem : (⟨before, offset, rest⟩ : Cursor) ∈ start.onward) :
    p.Spec ⟨before, offset, rest⟩
      (findFrom p (limit p.labels start) met before offset rest) := by
  induction rest generalizing met before offset with
  | nil =>
    rw [findFrom]
    split
    · exact spec_here (matchAt_of_run ‹_›)
    · intro d mem'
      cases List.mem_singleton.1 mem'
      exact (none_of_run searchable inside pending mem ‹_›).2
  | cons s rest ih =>
    rw [findFrom]
    split
    · exact spec_here (matchAt_of_run ‹_›)
    · obtain ⟨after, failed⟩ := none_of_run searchable inside pending mem ‹_›
      exact spec_cons failed (ih after (Cursor.past_mem_onward mem rfl))

end

/-- The program of an expression finds the leftmost match. -/
theorem find?_spec (e : Expr) {c : Cursor} (wide : ∀ s ∈ c.rest, 0 < s.width) :
    (Program.ofExpr e).Spec c ((Program.ofExpr e).find? c) := by
  refine findFrom_spec (Program.searchable e wide) (fun _ mem => mem) ⟨?_, ?_, ?_⟩
    (Cursor.self_mem_onward c)
  · simp
  · simp
  · simp

/-! ### All matches -/

theorem MatchAt.start_le_finish {c : Cursor} {f : Found} (h : p.MatchAt c f) :
    f.start ≤ f.finish := by
  rw [h.start]
  exact Cursor.offset_le_of_onward h.path.mem_onward

/-- A match before others, unless it is empty and starts where the one before it ended. -/
def kept (last : Option Nat) (f : Found) (others : List Found) : List Found :=
  if last = some f.start then others else f :: others

/-- How matches follow each other: after a match, the search goes on where it ended, and after an
    empty one where the search had started, one character further on. -/
inductive Lists (p : Program) : Option Nat → Cursor → List Found → Prop where
  | none {last c} : p.find? c = none → Lists p last c []
  | ended {last c f} : p.find? c = some f → f.finish = c.offset → c.rest = [] →
      Lists p last c (kept last f [])
  | empty {last c f s rest fs} : p.find? c = some f → f.finish = c.offset → c.rest = s :: rest →
      Lists p (some f.finish) (c.past s rest) fs → Lists p last c (kept last f fs)
  | full {last c f fs} : p.find? c = some f → f.finish ≠ c.offset →
      Lists p (some f.finish) f.stop fs → Lists p last c (f :: fs)

theorem stop_mem_onward {c : Cursor} {f : Found} (h : p.find? c = some f) :
    f.stop ∈ c.onward := by
  obtain ⟨d, mem, found⟩ := matchAt_of_find? h
  exact Cursor.onward_trans mem found.path.mem_onward

theorem lists_findAll (p : Program) (last : Option Nat) (c : Cursor) :
    Lists p last c (p.findAll last c) := by
  induction size : c.rest.length using Nat.strongRecOn generalizing last c with
  | _ size ih =>
    rw [findAll]
    cases found : p.find? c with
    | none => exact .none found
    | some f =>
      simp only [Bool.and_eq_true, beq_iff_eq]
      by_cases here : f.stop.offset = c.offset
      · simp only [here, true_and, if_true]
        obtain ⟨before, offset, _ | ⟨s, rest⟩⟩ := c
        · exact .ended found here rfl
        · have later := ih rest.length (by simp [← size]) (some f.finish)
            (Cursor.past ⟨before, offset, s :: rest⟩ s rest) rfl
          rw [Found.finish, here] at later
          exact .empty found here rfl (by rwa [Found.finish, here])
      · have shorter : f.stop.rest.length < c.rest.length := by
          obtain ⟨taken, split, eq⟩ := Cursor.mem_onward.1 (stop_mem_onward found)
          have nonempty : taken ≠ [] := by
            rintro rfl
            exact here (by simpa using congrArg Cursor.offset eq)
          have := List.length_pos_iff.2 nonempty
          rw [split, List.length_append]
          omega
        simp only [here, false_and, if_false, dif_pos shorter]
        exact .full found here (ih _ (size ▸ shorter) _ _ rfl)

theorem mem_kept {last : Option Nat} {f g : Found} {fs : List Found} (h : g ∈ kept last f fs) :
    g = f ∨ g ∈ fs := by
  unfold kept at h
  split at h
  · exact .inr h
  · exact List.mem_cons.1 h

/-- Every match is a match at a place further on. -/
theorem Lists.matchAt {last : Option Nat} {c : Cursor} {fs : List Found} (h : Lists p last c fs)
    {f : Found} (mem : f ∈ fs) : ∃ d ∈ c.onward, p.MatchAt d f := by
  induction h with
  | none => cases mem
  | ended found =>
    obtain rfl | mem := mem_kept mem
    · exact matchAt_of_find? found
    · cases mem
  | @empty last c g s rest fs found here more _ ih =>
    obtain rfl | mem := mem_kept mem
    · exact matchAt_of_find? found
    · obtain ⟨d, place, found⟩ := ih mem
      exact ⟨d, Cursor.onward_trans (Cursor.past_mem_onward c.self_mem_onward more) place, found⟩
  | @full last c g fs found _ _ ih =>
    obtain rfl | mem := List.mem_cons.1 mem
    · exact matchAt_of_find? found
    · obtain ⟨d, place, found'⟩ := ih mem
      exact ⟨d, Cursor.onward_trans (stop_mem_onward found) place, found'⟩

/-- What follows the end of a match: it starts there or later, and is not empty right there. -/
def Follows (finish : Nat) (f : Found) : Prop :=
  finish ≤ f.start ∧ ¬ (f.start = finish ∧ f.finish = finish)

/-- Matches each of which follows the one before. -/
def InOrder : List Found → Prop
  | [] => True
  | f :: fs => (∀ g ∈ fs.head?, Follows f.finish g) ∧ InOrder fs

theorem InOrder.cons {f : Found} {fs : List Found} (h : InOrder fs)
    (next : ∀ g ∈ fs.head?, Follows f.finish g) : InOrder (f :: fs) := ⟨next, h⟩

theorem InOrder.of_front {fs gs : List Found} (h : InOrder gs) (front : fs <+: gs) :
    InOrder fs := by
  induction fs generalizing gs with
  | nil => trivial
  | cons f fs ih =>
    obtain ⟨rest, rfl⟩ := front
    refine ⟨fun g mem => h.1 g ?_, ih h.2 ⟨rest, rfl⟩⟩
    cases fs with
    | nil => cases mem
    | cons => exact mem

/-- A match that is found from a place on follows what ended before that place. -/
theorem follows_of_find? {c : Cursor} {f : Found} (found : p.find? c = some f) {finish : Nat}
    (le : finish ≤ c.offset) (new : f.finish = c.offset → f.start ≠ finish) :
    Follows finish f := by
  obtain ⟨d, place, matched⟩ := matchAt_of_find? found
  have after := Cursor.offset_le_of_onward place
  have := matched.start
  refine ⟨by omega, fun ⟨start, ended⟩ => new (by omega) start⟩

/-- The matches of a text are in order, also after a match that ended at `last`. -/
theorem Lists.inOrder {last : Option Nat} {c : Cursor} {fs : List Found} (h : Lists p last c fs)
    (before : ∀ finish ∈ last, finish ≤ c.offset) :
    InOrder fs ∧ ∀ finish ∈ last, ∀ f ∈ fs.head?, Follows finish f := by
  induction h with
  | none => exact ⟨trivial, by simp⟩
  | @ended last c f found here ended =>
    unfold kept
    split
    · exact ⟨trivial, by simp⟩
    · rename_i new
      refine ⟨InOrder.cons trivial (by simp), fun finish mem g head => ?_⟩
      cases head
      exact follows_of_find? found (before finish mem) fun _ same => new (by rw [same, mem])
  | @empty last c f s rest fs found here more _ ih =>
    have further := Nat.le_add_right c.offset s.width
    obtain ⟨ordered, next⟩ := ih fun finish mem => by
      cases mem
      exact here ▸ further
    unfold kept
    split
    · rename_i same
      obtain ⟨d, place, matched⟩ := matchAt_of_find? found
      have start : f.start = f.finish := by
        have := Cursor.offset_le_of_onward place
        have := matched.start
        have := matched.start_le_finish
        omega
      refine ⟨ordered, fun finish mem => ?_⟩
      rw [same, start] at mem
      exact next finish mem
    · rename_i new
      refine ⟨ordered.cons (next _ rfl), fun finish mem g head => ?_⟩
      cases head
      exact follows_of_find? found (before finish mem) fun _ same => new (by rw [same, mem])
  | @full last c f fs found there _ ih =>
    obtain ⟨ordered, next⟩ := ih fun finish mem => by
      cases mem
      exact Nat.le_refl _
    refine ⟨ordered.cons (next _ rfl), fun finish mem g head => ?_⟩
    cases head
    exact follows_of_find? found (before finish mem) fun ended => absurd ended there

end Program

end Pattern

end Rulebook

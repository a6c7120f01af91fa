import Rulebook.Proofs.Pattern.Captures
import Rulebook.Proofs.Pattern.Nameless

/-!
# Where an expression leads

`Expr.Leads` relates a place to the places that an expression leads to, whatever is noted on the way,
so that it depends neither on the numbers nor on the names of groups.
-/

namespace Rulebook

namespace Pattern

namespace Cursor

/-- True of two places with certain characters between them. -/
def Spans (c : Cursor) (taken : List Scalar) (d : Cursor) : Prop :=
  c.rest = taken ++ d.rest ∧ d = c.advance taken d.rest

theorem spans_append {c d : Cursor} {first second : List Scalar} :
    c.Spans (first ++ second) d ↔ ∃ e, c.Spans first e ∧ e.Spans second d := by
  constructor
  · rintro ⟨rest, place⟩
    refine ⟨c.advance first (second ++ d.rest), ⟨by simpa using rest, rfl⟩, rfl, ?_⟩
    rw [advance_advance]
    exact place
  · rintro ⟨e, ⟨rest, place⟩, rest', place'⟩
    refine ⟨by rw [rest, rest', List.append_assoc], ?_⟩
    rw [place', place, rest', advance_advance, rest_advance]

theorem spans_nil {c d : Cursor} : c.Spans [] d ↔ d = c :=
  ⟨fun ⟨rest, place⟩ => by rw [place, ← List.nil_append d.rest, ← rest, advance_nil],
    fun eq => by subst eq; exact ⟨rfl, rfl⟩⟩

end Cursor

namespace Expr

/-- True if an expression leads from a place to another. -/
def Leads (e : Expr) (c d : Cursor) : Prop := ∃ m, e.passes c d m

theorem Leads.mem_onward {e : Expr} {c d : Cursor} (h : e.Leads c d) : d ∈ c.onward :=
  h.elim fun _ passage => (reaches_iff.2 passage).mem_onward

theorem leads_test {condition : Assertion} {c d : Cursor} :
    (test condition).Leads c d ↔ c.holds condition = true ∧ d = c := by
  simp [Leads, passes]

theorem leads_one {set : CharSet} {c d : Cursor} :
    (one set).Leads c d ↔
      ∃ s rest, c.rest = s :: rest ∧ set.contains s.code = true ∧ d = c.past s rest := by
  simp [Leads, passes]

@[simp] theorem leads_group (index : Nat) (name : Bytes) (e : Expr) (c d : Cursor) :
    (group index name e).Leads c d ↔ e.Leads c d := by
  constructor
  · rintro ⟨_, inner, here, rfl⟩
    exact ⟨inner, here⟩
  · rintro ⟨inner, here⟩
    exact ⟨_, inner, here, rfl⟩

theorem leads_cat {a b : Expr} {c e : Cursor} :
    (cat a b).Leads c e ↔ ∃ d, a.Leads c d ∧ b.Leads d e := by
  constructor
  · rintro ⟨m, d, first, second, here, there, rfl⟩
    exact ⟨d, ⟨first, here⟩, second, there⟩
  · rintro ⟨d, ⟨first, here⟩, second, there⟩
    exact ⟨_, d, first, second, here, there, rfl⟩

theorem leads_alt {a b : Expr} {c d : Cursor} : (alt a b).Leads c d ↔ a.Leads c d ∨ b.Leads c d :=
  exists_or

theorem leads_opt {e : Expr} {greedy : Bool} {c d : Cursor} :
    (opt greedy e).Leads c d ↔ e.Leads c d ∨ d = c := by
  simp [Leads, passes, Passage.orElse, Passage.stay, exists_or]

theorem Regroups.leads_iff {a b : Expr} (h : Regroups a b) {c d : Cursor} :
    a.Leads c d ↔ b.Leads c d := by
  rw [Leads, Leads, h.passes_eq]

/-- The passages of an expression that is repeated, up to what is noted, depend only on where the
    expression leads. -/
theorem exists_power_congr {p q : Passage} (same : ∀ c d, (∃ m, p c d m) ↔ ∃ m, q c d m) (n : Nat)
    (c d : Cursor) : (∃ m, p.power n c d m) ↔ ∃ m, q.power n c d m := by
  induction n generalizing c with
  | zero => rfl
  | succ n ih =>
    constructor
    · rintro ⟨_, e, first, second, here, there, rfl⟩
      obtain ⟨first, here⟩ := (same c e).1 ⟨first, here⟩
      obtain ⟨second, there⟩ := (ih e).1 ⟨second, there⟩
      exact ⟨_, e, first, second, here, there, rfl⟩
    · rintro ⟨_, e, first, second, here, there, rfl⟩
      obtain ⟨first, here⟩ := (same c e).2 ⟨first, here⟩
      obtain ⟨second, there⟩ := (ih e).2 ⟨second, there⟩
      exact ⟨_, e, first, second, here, there, rfl⟩

theorem exists_often_congr {p q : Passage} (same : ∀ c d, (∃ m, p c d m) ↔ ∃ m, q c d m)
    (allowed : Nat → Prop) (c d : Cursor) :
    (∃ m, p.often allowed c d m) ↔ ∃ m, q.often allowed c d m := by
  constructor
  · rintro ⟨m, n, fine, here⟩
    obtain ⟨m, here⟩ := (exists_power_congr same n c d).1 ⟨m, here⟩
    exact ⟨m, n, fine, here⟩
  · rintro ⟨m, n, fine, here⟩
    obtain ⟨m, here⟩ := (exists_power_congr same n c d).2 ⟨m, here⟩
    exact ⟨m, n, fine, here⟩

/-- The numbers of groups do not matter. -/
theorem leads_numberFrom (e : Expr) (next : Nat) (c d : Cursor) :
    (e.numberFrom next).1.Leads c d ↔ e.Leads c d := by
  induction e generalizing next c d with
  | empty | one | test => rfl
  | group index name e ih => simp [ih]
  | cat a b ha hb => simp only [numberFrom, leads_cat, ha, hb]
  | alt a b ha hb => simp only [numberFrom, leads_alt, ha, hb]
  | star greedy e ih => exact exists_often_congr (fun c d => ih next c d) _ c d
  | plus greedy e ih => exact exists_often_congr (fun c d => ih next c d) _ c d
  | opt greedy e ih => simp only [numberFrom, leads_opt, ih]
  | times low high greedy e ih => exact exists_often_congr (fun c d => ih next c d) _ c d

theorem leads_numbered (e : Expr) (c d : Cursor) : e.numbered.Leads c d ↔ e.Leads c d :=
  leads_numberFrom e 1 c d

theorem Numbers.leads_iff {part e : Expr} (h : Numbers part e) {c d : Cursor} :
    part.Leads c d ↔ e.Leads c d := by
  obtain ⟨next, rfl⟩ := h
  exact leads_numberFrom e next c d

theorem leads_concat_append (xs ys : List Expr) {c e : Cursor} :
    (concat (xs ++ ys)).Leads c e ↔ ∃ d, (concat xs).Leads c d ∧ (concat ys).Leads d e := by
  rw [(regroups_concat_append xs ys).leads_iff, leads_cat]

theorem leads_choice {es : List Expr} (several : es ≠ []) {c d : Cursor} :
    (choice es).Leads c d ↔ ∃ e ∈ es, e.Leads c d := by
  fun_induction choice es with
  | case1 => exact absurd rfl several
  | case2 e => simp
  | case3 e rest more ih =>
    rw [leads_alt, ih (by rintro rfl; exact more rfl)]
    simp

theorem leads_of_free {e : Expr} (free : e.isFree = true) {c d : Cursor} :
    e.Leads c d ↔ ∃ w ∈ e.language, c.rest = w ++ d.rest ∧ d = c.advance w d.rest :=
  reads_passes free c d

/-! ### Characters that are never taken -/

/-- True of an expression without conditions that never takes the character with a code point. -/
@[simp] def avoids (code : Nat) : Expr → Bool
  | empty => true
  | one set => !set.contains code
  | test _ => false
  | group _ _ e => e.avoids code
  | cat a b => a.avoids code && b.avoids code
  | alt a b => a.avoids code && b.avoids code
  | star _ e => e.avoids code
  | plus _ e => e.avoids code
  | opt _ e => e.avoids code
  | times _ _ _ e => e.avoids code

variable {code : Nat}

theorem isFree_of_avoids {e : Expr} (h : e.avoids code = true) : e.isFree = true := by
  induction e with
  | empty | one => rfl
  | test => cases h
  | group _ _ _ ih => exact ih h
  | cat _ _ ih ih' => simp_all
  | alt _ _ ih ih' => simp_all
  | star _ _ ih => exact ih h
  | plus _ _ ih => exact ih h
  | opt _ _ ih => exact ih h
  | times _ _ _ _ ih => exact ih h

theorem code_ne_of_mem_multiples {l : Language Scalar} {allowed : Nat → Prop}
    (h : ∀ w ∈ l, ∀ s ∈ w, s.code ≠ code) :
    ∀ w ∈ multiples l allowed, ∀ s ∈ w, s.code ≠ code := by
  intro w mem s here
  obtain ⟨pieces, -, rfl, all⟩ := mem_multiples.1 mem
  obtain ⟨piece, mem, here⟩ := List.mem_flatten.1 here
  exact h piece (all piece mem) s here

/-- No text that an expression takes holds a character that the expression avoids. -/
theorem code_ne_of_mem_language {e : Expr} (h : e.avoids code = true) :
    ∀ w ∈ e.language, ∀ s ∈ w, s.code ≠ code := by
  induction e with
  | empty =>
    intro w mem s here
    rw [language, Language.mem_one] at mem
    subst mem
    cases here
  | one set =>
    rintro w ⟨s, rfl, taken⟩ t here rfl
    rw [List.mem_singleton] at here
    subst here
    rw [avoids, taken] at h
    cases h
  | test => cases h
  | group _ _ _ ih => exact ih h
  | cat a b ih ih' =>
    rw [avoids, Bool.and_eq_true] at h
    intro w mem s here
    obtain ⟨u, first, v, second, rfl⟩ := Language.mem_mul.1 mem
    obtain here | here := List.mem_append.1 here
    · exact ih h.1 u first s here
    · exact ih' h.2 v second s here
  | alt a b ih ih' =>
    rw [avoids, Bool.and_eq_true] at h
    intro w mem
    obtain mem | mem := mem
    · exact ih h.1 w mem
    · exact ih' h.2 w mem
  | star _ _ ih => exact code_ne_of_mem_multiples (ih h)
  | plus _ _ ih => exact code_ne_of_mem_multiples (ih h)
  | opt _ e ih =>
    intro w mem s here
    obtain mem | mem := mem
    · exact ih h w mem s here
    · rw [Set.mem_singleton_iff.1 mem] at here
      cases here
  | times _ _ _ _ ih => exact code_ne_of_mem_multiples (ih h)

theorem Regroups.avoids_eq {a b : Expr} (h : Regroups a b) : a.avoids code = b.avoids code := by
  induction h with
  | assoc a b c => simp [Bool.and_assoc]
  | _ => simp_all

theorem avoids_concat (es : List Expr) : (concat es).avoids code = es.all (avoids code) := by
  fun_induction concat es with
  | case1 => rfl
  | case2 e => simp
  | case3 e rest several ih => simp [ih]

theorem avoids_choice (es : List Expr) : (choice es).avoids code = es.all (avoids code) := by
  fun_induction choice es with
  | case1 => rfl
  | case2 e => simp
  | case3 e rest several ih => simp [ih]

@[simp] theorem avoids_nameless (e : Expr) : e.nameless.avoids code = e.avoids code := by
  induction e with
  | empty | one | test => rfl
  | group _ _ _ ih => simp only [nameless, avoids, ih]
  | cat _ _ ih ih' => simp only [nameless, avoids, ih, ih']
  | alt _ _ ih ih' => simp only [nameless, avoids, ih, ih']
  | star _ _ ih => simp only [nameless, avoids, ih]
  | plus _ _ ih => simp only [nameless, avoids, ih]
  | opt _ _ ih => simp only [nameless, avoids, ih]
  | times _ _ _ _ ih => simp only [nameless, avoids, ih]

end Expr

end Pattern

end Rulebook

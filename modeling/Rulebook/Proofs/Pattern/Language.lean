import Mathlib.Computability.Language
import Rulebook.Proofs.Pattern.Passage
import Rulebook.Proofs.Pattern.Regrouping

/-!
# Languages

An expression without conditions takes the same characters wherever it stands. `Expr.language` is the
set of these texts, in terms of concatenation, union and repetition, and `Expr.reads_passes` says
that there is a passage over a text exactly if the text is in the language.
-/

namespace Rulebook

namespace Pattern

/-- The texts that are made of as many texts of a language as a condition allows. -/
def multiples (l : Language Scalar) (allowed : Nat → Prop) : Language Scalar :=
  {w | ∃ n, allowed n ∧ w ∈ l ^ n}

theorem mem_multiples {l : Language Scalar} {allowed : Nat → Prop} {w : List Scalar} :
    w ∈ multiples l allowed ↔
      ∃ pieces : List (List Scalar), allowed pieces.length ∧ w = pieces.flatten ∧
        ∀ piece ∈ pieces, piece ∈ l := by
  constructor
  · rintro ⟨n, ok, mem⟩
    obtain ⟨pieces, rfl, rfl, all⟩ := Language.mem_pow.1 mem
    exact ⟨pieces, ok, rfl, all⟩
  · rintro ⟨pieces, ok, rfl, all⟩
    exact ⟨_, ok, Language.mem_pow.2 ⟨pieces, rfl, rfl, all⟩⟩

namespace Expr

/-- True of an expression without conditions. -/
@[simp] def isFree : Expr → Bool
  | empty => true
  | one _ => true
  | test _ => false
  | group _ _ e => e.isFree
  | cat a b => a.isFree && b.isFree
  | alt a b => a.isFree && b.isFree
  | star _ e => e.isFree
  | plus _ e => e.isFree
  | opt _ e => e.isFree
  | times _ _ _ e => e.isFree

/-- The texts that an expression takes. No text is counted for a condition, which depends on what
    is around it. -/
@[simp] def language : Expr → Language Scalar
  | empty => 1
  | one set => {w | ∃ s, w = [s] ∧ set.contains s.code = true}
  | test _ => 0
  | group _ _ e => e.language
  | cat a b => a.language * b.language
  | alt a b => a.language + b.language
  | star _ e => multiples e.language fun _ => True
  | plus _ e => multiples e.language (1 ≤ ·)
  | opt _ e => e.language + 1
  | times low high _ e => multiples e.language (Builder.Allowed low high)

end Expr

namespace Passage

/-- True of a passage that leads over the texts of a language, wherever they stand. -/
def Reads (p : Passage) (l : Language Scalar) : Prop := ∀ c d,
  (∃ m, p c d m) ↔ ∃ w ∈ l, c.rest = w ++ d.rest ∧ d = c.advance w d.rest

variable {p q : Passage} {l l' : Language Scalar}

theorem reads_stay : stay.Reads 1 := by
  intro c d
  simp only [stay, Language.mem_one, exists_eq_left, List.nil_append]
  constructor
  · rintro ⟨m, rfl, -⟩
    exact ⟨rfl, rfl⟩
  · rintro ⟨same, place⟩
    refine ⟨[], ?_, rfl⟩
    rw [place, ← same, Cursor.advance_nil]

theorem Reads.andThen (hp : p.Reads l) (hq : q.Reads l') : (p.andThen q).Reads (l * l') := by
  intro c e
  have middle : (∃ m, p.andThen q c e m) ↔ ∃ d, (∃ m, p c d m) ∧ ∃ m, q d e m := by
    constructor
    · rintro ⟨_, d, m₁, m₂, first, second, -⟩
      exact ⟨d, ⟨m₁, first⟩, m₂, second⟩
    · rintro ⟨d, ⟨m₁, first⟩, m₂, second⟩
      exact ⟨_, d, m₁, m₂, first, second, rfl⟩
  rw [middle]
  constructor
  · rintro ⟨d, first, second⟩
    obtain ⟨u, hu, rest, place⟩ := (hp c d).1 first
    obtain ⟨v, hv, rest', place'⟩ := (hq d e).1 second
    refine ⟨u ++ v, Language.append_mem_mul hu hv, by rw [rest, rest', List.append_assoc], ?_⟩
    rw [← Cursor.advance_advance, ← rest', ← place]
    exact place'
  · rintro ⟨w, mem, rest, place⟩
    obtain ⟨u, hu, v, hv, rfl⟩ := Language.mem_mul.1 mem
    rw [List.append_assoc] at rest
    refine ⟨c.advance u (v ++ e.rest), (hp _ _).2 ⟨u, hu, rest, rfl⟩, (hq _ _).2 ⟨v, hv, rfl, ?_⟩⟩
    rw [Cursor.advance_advance]
    exact place

theorem Reads.orElse (hp : p.Reads l) (hq : q.Reads l') : (p.orElse q).Reads (l + l') := by
  intro c d
  have either : (∃ m, p.orElse q c d m) ↔ (∃ m, p c d m) ∨ ∃ m, q c d m := exists_or
  rw [either, hp, hq]
  simp only [Language.mem_add, or_and_right, exists_or]

theorem Reads.power (hp : p.Reads l) (n : Nat) : (p.power n).Reads (l ^ n) := by
  induction n with
  | zero => exact reads_stay
  | succ n ih =>
    rw [pow_succ']
    exact hp.andThen ih

theorem Reads.often (hp : p.Reads l) (allowed : Nat → Prop) :
    (p.often allowed).Reads (multiples l allowed) := by
  intro c d
  constructor
  · rintro ⟨m, n, ok, here⟩
    obtain ⟨w, mem, place⟩ := (hp.power n c d).1 ⟨m, here⟩
    exact ⟨w, ⟨n, ok, mem⟩, place⟩
  · rintro ⟨w, ⟨n, ok, mem⟩, place⟩
    obtain ⟨m, here⟩ := (hp.power n c d).2 ⟨w, mem, place⟩
    exact ⟨m, n, ok, here⟩

end Passage

namespace Expr

/-- An expression without conditions takes the texts of its language. -/
theorem reads_passes {e : Expr} (free : e.isFree = true) : e.passes.Reads e.language := by
  induction e with
  | empty => exact Passage.reads_stay
  | one set =>
    intro c d
    constructor
    · rintro ⟨m, s, rest, here, on, rfl, -⟩
      exact ⟨[s], ⟨s, rfl, on⟩, here, Cursor.past_eq_advance c s rest⟩
    · rintro ⟨_, ⟨s, rfl, on⟩, here, place⟩
      exact ⟨[], s, d.rest, here, on, place.trans (Cursor.past_eq_advance c s d.rest).symm, rfl⟩
  | test => cases free
  | group index name e ih =>
    intro c d
    rw [language, ← ih free c d]
    constructor
    · rintro ⟨m, inner, here, -⟩
      exact ⟨inner, here⟩
    · rintro ⟨inner, here⟩
      exact ⟨_, inner, here, rfl⟩
  | cat a b ha hb =>
    rw [isFree, Bool.and_eq_true] at free
    exact (ha free.1).andThen (hb free.2)
  | alt a b ha hb =>
    rw [isFree, Bool.and_eq_true] at free
    exact (ha free.1).orElse (hb free.2)
  | star greedy e ih => exact (ih free).often _
  | plus greedy e ih => exact (ih free).often _
  | opt greedy e ih => exact (ih free).orElse Passage.reads_stay
  | times low high greedy e ih => exact (ih free).often _

/-! ### Form and language -/

theorem Regroups.language_eq {a b : Expr} (h : Regroups a b) : a.language = b.language := by
  induction h with
  | refl => rfl
  | symm _ ih => exact ih.symm
  | trans _ _ ih ih' => exact ih.trans ih'
  | assoc => exact mul_assoc _ _ _
  | empty_cat => exact one_mul _
  | cat_empty => exact mul_one _
  | group _ ih => exact ih
  | cat _ _ ih ih' => simp [ih, ih']
  | alt _ _ ih ih' => simp [ih, ih']
  | star _ ih => simp [ih]
  | plus _ ih => simp [ih]
  | opt _ ih => simp [ih]
  | times _ ih => simp [ih]

theorem Regroups.isFree_eq {a b : Expr} (h : Regroups a b) : a.isFree = b.isFree := by
  induction h with
  | refl => rfl
  | symm _ ih => exact ih.symm
  | trans _ _ ih ih' => exact ih.trans ih'
  | assoc => simp [Bool.and_assoc]
  | empty_cat => simp
  | cat_empty => simp
  | _ => simp_all

theorem language_numberFrom (e : Expr) (next : Nat) :
    (e.numberFrom next).1.language = e.language := by
  induction e generalizing next with
  | empty | one | test => rfl
  | group index name e ih => simp [ih]
  | cat a b ha hb => simp [ha, hb]
  | alt a b ha hb => simp [ha, hb]
  | star greedy e ih => simp [ih]
  | plus greedy e ih => simp [ih]
  | opt greedy e ih => simp [ih]
  | times low high greedy e ih => simp [ih]

theorem isFree_numberFrom (e : Expr) (next : Nat) : (e.numberFrom next).1.isFree = e.isFree := by
  induction e generalizing next with
  | empty | one | test => rfl
  | group index name e ih => simp [ih]
  | cat a b ha hb => simp [ha, hb]
  | alt a b ha hb => simp [ha, hb]
  | star greedy e ih => simp [ih]
  | plus greedy e ih => simp [ih]
  | opt greedy e ih => simp [ih]
  | times low high greedy e ih => simp [ih]

theorem isFree_unnumbered (e : Expr) : e.unnumbered.isFree = e.isFree := by
  induction e with
  | empty | one | test => rfl
  | group index name e ih => simp [ih]
  | cat a b ha hb => simp [ha, hb]
  | alt a b ha hb => simp [ha, hb]
  | star greedy e ih => simp [ih]
  | plus greedy e ih => simp [ih]
  | opt greedy e ih => simp [ih]
  | times low high greedy e ih => simp [ih]

theorem isFree_concat (es : List Expr) : (concat es).isFree = es.all isFree := by
  fun_induction concat es with
  | case1 => rfl
  | case2 e => simp
  | case3 e rest several ih => simp [ih]

theorem isFree_choice (es : List Expr) : (choice es).isFree = es.all isFree := by
  fun_induction choice es with
  | case1 => rfl
  | case2 e => simp
  | case3 e rest several ih => simp [ih]

/-- The texts of a concatenation are cut into texts of its parts. -/
theorem mem_language_concat {es : List Expr} {w : List Scalar} :
    w ∈ (concat es).language ↔
      ∃ pieces, List.Forall₂ (fun piece e => piece ∈ e.language) pieces es ∧ w = pieces.flatten := by
  fun_induction concat es generalizing w with
  | case1 => simp [Language.mem_one]
  | case2 e =>
    constructor
    · intro mem
      exact ⟨[w], .cons mem .nil, by simp⟩
    · rintro ⟨_, _ | ⟨here, _ | _⟩, rfl⟩
      simpa using here
  | case3 e rest several ih =>
    rw [language, Language.mem_mul]
    constructor
    · rintro ⟨u, hu, v, hv, rfl⟩
      obtain ⟨pieces, all, rfl⟩ := ih.1 hv
      exact ⟨u :: pieces, .cons hu all, by simp⟩
    · rintro ⟨_, _ | ⟨here, others⟩, rfl⟩
      exact ⟨_, here, _, ih.2 ⟨_, others, rfl⟩, by simp⟩

/-- The texts of a choice between several expressions are those of one of them. -/
theorem mem_language_choice {es : List Expr} (several : es ≠ []) {w : List Scalar} :
    w ∈ (choice es).language ↔ ∃ e ∈ es, w ∈ e.language := by
  fun_induction choice es with
  | case1 => exact absurd rfl several
  | case2 e => simp
  | case3 e rest more ih =>
    rw [language, Language.mem_add, ih (by rintro rfl; exact more rfl)]
    simp

end Expr

end Pattern

end Rulebook

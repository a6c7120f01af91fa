import Rulebook.Pattern.Program
import Rulebook.Proofs.Pattern.Numbering

/-!
# Expressions that differ in form only

A concatenation can be put together in more than one order, and groups are numbered in the order in
which they open. `Expr.Regroups` relates expressions that differ in the first respect, which does
not show in a program (`Expr.Regroups.program_eq`); `Expr.numbered` numbers the groups of an
expression, and `Piece.numbered_parse` says that a pattern that was read is numbered so.
-/

namespace Rulebook

namespace Pattern

namespace Expr

/-! ### Order of concatenation -/

/-- Expressions that differ only in how concatenations are put together. -/
inductive Regroups : Expr → Expr → Prop where
  | refl (e) : Regroups e e
  | symm {a b} : Regroups a b → Regroups b a
  | trans {a b c} : Regroups a b → Regroups b c → Regroups a c
  | assoc (a b c) : Regroups (cat (cat a b) c) (cat a (cat b c))
  | empty_cat (a) : Regroups (cat empty a) a
  | cat_empty (a) : Regroups (cat a empty) a
  | group {index name a b} : Regroups a b → Regroups (group index name a) (group index name b)
  | cat {a a' b b'} : Regroups a a' → Regroups b b' → Regroups (cat a b) (cat a' b')
  | alt {a a' b b'} : Regroups a a' → Regroups b b' → Regroups (alt a b) (alt a' b')
  | star {greedy a b} : Regroups a b → Regroups (star greedy a) (star greedy b)
  | plus {greedy a b} : Regroups a b → Regroups (plus greedy a) (plus greedy b)
  | opt {greedy a b} : Regroups a b → Regroups (opt greedy a) (opt greedy b)
  | times {min max greedy a b} : Regroups a b →
      Regroups (times min max greedy a) (times min max greedy b)

theorem regroups_concat_append (xs ys : List Expr) :
    Regroups (concat (xs ++ ys)) (.cat (concat xs) (concat ys)) := by
  induction xs with
  | nil => exact .symm (.empty_cat _)
  | cons x xs ih =>
    have cons (zs : List Expr) : Regroups (concat (x :: zs)) (.cat x (concat zs)) := by
      cases zs with
      | nil => exact .symm (.cat_empty x)
      | cons => exact .refl _
    exact (cons _).trans (((Regroups.refl x).cat ih).trans
      ((Regroups.symm (.assoc _ _ _)).trans ((cons xs).symm.cat (.refl _))))

theorem regroups_concat_cons (x : Expr) (xs : List Expr) :
    Regroups (concat (x :: xs)) (.cat x (concat xs)) := regroups_concat_append [x] xs

theorem Regroups.concat {xs ys : List Expr} (h : List.Forall₂ Regroups xs ys) :
    Regroups (concat xs) (Expr.concat ys) := by
  induction h with
  | nil => exact .refl _
  | cons here _ ih =>
    exact (regroups_concat_cons _ _).trans ((here.cat ih).trans (regroups_concat_cons _ _).symm)

theorem Regroups.choice {xs ys : List Expr} (h : List.Forall₂ Regroups xs ys) :
    Regroups (choice xs) (Expr.choice ys) := by
  induction h with
  | nil => exact .refl _
  | @cons x y xs ys here rest ih =>
    cases rest with
    | nil => exact here
    | cons => exact here.alt ih

theorem Regroups.nullable_eq {a b : Expr} (h : Regroups a b) : a.nullable = b.nullable := by
  induction h with
  | refl => rfl
  | symm _ ih => exact ih.symm
  | trans _ _ ih ih' => exact ih.trans ih'
  | assoc => simp [nullable, Bool.and_assoc]
  | empty_cat => simp [nullable]
  | cat_empty => simp [nullable]
  | _ => simp_all [nullable]

theorem Regroups.names_eq {a b : Expr} (h : Regroups a b) : a.names = b.names := by
  induction h with
  | refl => rfl
  | symm _ ih => exact ih.symm
  | trans _ _ ih ih' => exact ih.trans ih'
  | assoc => simp [names]
  | empty_cat => simp [names]
  | cat_empty => simp [names]
  | _ => simp_all [names]

theorem Builder.append_assoc (a b c : Builder) :
    Builder.append (Builder.append a b) c = Builder.append a (Builder.append b c) := by
  funext label
  simp [Builder.append]

/-- How a concatenation is put together does not show in the program. -/
theorem Regroups.build_eq {a b : Expr} (h : Regroups a b) : a.build = b.build := by
  induction h with
  | refl => rfl
  | symm _ ih => exact ih.symm
  | trans _ _ ih ih' => exact ih.trans ih'
  | assoc => exact Builder.append_assoc _ _ _
  | empty_cat => rfl
  | cat_empty =>
    funext label
    simp [build, Builder.append, Builder.nil]
  | group _ ih => simp only [build, ih]
  | cat _ _ ih ih' => simp only [build, ih, ih']
  | alt _ _ ih ih' => simp only [build, ih, ih']
  | star same ih => simp only [build, ih, same.nullable_eq]
  | plus _ ih => simp only [build, ih]
  | opt _ ih => simp only [build, ih]
  | times same ih => simp only [build, ih, same.nullable_eq]

theorem Regroups.program_eq {a b : Expr} (h : Regroups a b) :
    Program.ofExpr a = Program.ofExpr b := by
  simp only [Program.ofExpr, h.build_eq]

/-! ### Numbers of groups -/

/-- The expression with its groups numbered in the order in which they open, and the first number
    that is left. -/
@[simp] def numberFrom (next : Nat) : Expr → Expr × Nat
  | empty => (empty, next)
  | one set => (one set, next)
  | test condition => (test condition, next)
  | group _ name e =>
      match e.numberFrom (next + 1) with
      | (e', next') => (group next name e', next')
  | cat a b =>
      match a.numberFrom next with
      | (a', next') =>
          match b.numberFrom next' with
          | (b', next'') => (cat a' b', next'')
  | alt a b =>
      match a.numberFrom next with
      | (a', next') =>
          match b.numberFrom next' with
          | (b', next'') => (alt a' b', next'')
  | star greedy e =>
      match e.numberFrom next with
      | (e', next') => (star greedy e', next')
  | plus greedy e =>
      match e.numberFrom next with
      | (e', next') => (plus greedy e', next')
  | opt greedy e =>
      match e.numberFrom next with
      | (e', next') => (opt greedy e', next')
  | times min max greedy e =>
      match e.numberFrom next with
      | (e', next') => (times min max greedy e', next')

/-- The expression with its groups numbered from one on. -/
def numbered (e : Expr) : Expr := (e.numberFrom 1).1

theorem Regroups.numberFrom {a b : Expr} (h : Regroups a b) (next : Nat) :
    Regroups (a.numberFrom next).1 (b.numberFrom next).1 ∧
      (a.numberFrom next).2 = (b.numberFrom next).2 := by
  induction h generalizing next with
  | refl => exact ⟨.refl _, rfl⟩
  | symm _ ih => exact ⟨(ih next).1.symm, (ih next).2.symm⟩
  | trans _ _ ih ih' => exact ⟨(ih next).1.trans (ih' next).1, (ih next).2.trans (ih' next).2⟩
  | assoc => exact ⟨.assoc _ _ _, rfl⟩
  | empty_cat => exact ⟨.empty_cat _, rfl⟩
  | cat_empty => exact ⟨.cat_empty _, rfl⟩
  | group _ ih => exact ⟨(ih _).1.group, (ih _).2⟩
  | cat _ _ ih ih' =>
    obtain ⟨first, same⟩ := ih next
    simp only [Expr.numberFrom]
    rw [same]
    exact ⟨first.cat (ih' _).1, (ih' _).2⟩
  | alt _ _ ih ih' =>
    obtain ⟨first, same⟩ := ih next
    simp only [Expr.numberFrom]
    rw [same]
    exact ⟨first.alt (ih' _).1, (ih' _).2⟩
  | star _ ih => exact ⟨(ih next).1.star, (ih next).2⟩
  | plus _ ih => exact ⟨(ih next).1.plus, (ih next).2⟩
  | opt _ ih => exact ⟨(ih next).1.opt, (ih next).2⟩
  | times _ ih => exact ⟨(ih next).1.times, (ih next).2⟩

theorem Regroups.numbered {a b : Expr} (h : Regroups a b) : Regroups a.numbered b.numbered :=
  (h.numberFrom 1).1

/-- The numbers that an expression has do not matter. -/
theorem unnumbered_numberFrom (e : Expr) (next : Nat) :
    e.unnumbered.numberFrom next = e.numberFrom next := by
  induction e generalizing next with
  | empty => rfl
  | one => rfl
  | test => rfl
  | group index name e ih => simp [ih]
  | cat a b ha hb => simp [ha, hb]
  | alt a b ha hb => simp [ha, hb]
  | star greedy e ih => simp [ih]
  | plus greedy e ih => simp [ih]
  | opt greedy e ih => simp [ih]
  | times min max greedy e ih => simp [ih]

theorem names_numberFrom (e : Expr) (next : Nat) : (e.numberFrom next).1.names = e.names := by
  induction e generalizing next with
  | empty => rfl
  | one => rfl
  | test => rfl
  | group index name e ih => simp [names, ih]
  | cat a b ha hb => simp [names, ha, hb]
  | alt a b ha hb => simp [names, ha, hb]
  | star greedy e ih => simp [names, ih]
  | plus greedy e ih => simp [names, ih]
  | opt greedy e ih => simp [names, ih]
  | times min max greedy e ih => simp [names, ih]

theorem range'_append_split {n k : Nat} {xs ys : List Nat} (h : xs ++ ys = List.range' n k) :
    xs = List.range' n xs.length ∧ ys = List.range' (n + xs.length) ys.length := by
  have length := congrArg List.length h
  simp only [List.length_append, List.length_range'] at length
  subst length
  rw [← List.range'_append_1] at h
  exact List.append_inj h (by simp)

/-- Groups that are numbered in order have the numbers that are given in order. -/
theorem numberFrom_of_slots (e : Expr) {next : Nat}
    (h : e.slots.map Prod.fst = List.range' next e.slots.length) :
    e.numberFrom next = (e, next + e.slots.length) := by
  induction e generalizing next with
  | empty => rfl
  | one => rfl
  | test => rfl
  | group index name e ih =>
    simp only [slots, List.map_cons, List.length_cons, List.range'_succ, List.cons.injEq] at h
    simp only [Expr.numberFrom, ih h.2, h.1, slots, List.length_cons]
    simp only [Prod.mk.injEq, true_and]
    omega
  | cat a b ha hb =>
    simp only [slots, List.map_append, List.length_append] at h
    obtain ⟨first, second⟩ := range'_append_split h
    simp only [List.length_map] at first second
    simp only [Expr.numberFrom, ha first, hb second, slots, List.length_append,
      Nat.add_assoc]
  | alt a b ha hb =>
    simp only [slots, List.map_append, List.length_append] at h
    obtain ⟨first, second⟩ := range'_append_split h
    simp only [List.length_map] at first second
    simp only [Expr.numberFrom, ha first, hb second, slots, List.length_append,
      Nat.add_assoc]
  | star greedy e ih => simp only [Expr.numberFrom, ih h, slots]
  | plus greedy e ih => simp only [Expr.numberFrom, ih h, slots]
  | opt greedy e ih => simp only [Expr.numberFrom, ih h, slots]
  | times min max greedy e ih => simp only [Expr.numberFrom, ih h, slots]

end Expr

/-- A pattern that was read is its expression without numbers, numbered in order. -/
theorem Piece.numbered_parse {source : Bytes} {piece : Piece} (h : Piece.parse source = .ok piece) :
    piece.expr.unnumbered.numbered = piece.expr := by
  have slots := Piece.slots_parse h
  rw [← Expr.map_snd_slots, List.length_map] at slots
  rw [Expr.numbered, Expr.unnumbered_numberFrom, Expr.numberFrom_of_slots _ slots]

end Pattern

end Rulebook

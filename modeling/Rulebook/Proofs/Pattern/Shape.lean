import Mathlib.Data.List.Forall2
import Rulebook.Pattern.Outline

/-!
# Shapes up to the weights noted for them

The weights that are noted for a shape, and the numbers of its groups, depend on all that has been
read before it. Nothing else does: `Shape.bare` forgets the two, and what is asked of a shape while
a pattern is read, its height above all, can be asked of the bare shape as well.
-/

namespace Rulebook

namespace Pattern

namespace Shape

mutual

/-- The shape without the weights noted for it and the numbers of its groups. -/
def bare : Shape → Shape
  | literal codes flags _ => literal codes flags none
  | captured _ body => captured 0 body.bare
  | repeated count greedy body => repeated count greedy body.bare
  | cat parts _ => cat (bares parts) none
  | alt parts _ => alt (bares parts) none
  | other => other

/-- Shapes without the weights noted for them. -/
def bares : List Shape → List Shape
  | [] => []
  | part :: rest => part.bare :: bares rest

end

theorem bares_eq_map (parts : List Shape) : bares parts = parts.map bare := by
  induction parts with
  | nil => rfl
  | cons part rest ih => simp [bares, ih]

/-- Two shapes that differ at most in weights and numbers. -/
def Like (s t : Shape) : Prop := s.bare = t.bare

/-- Two lists of shapes that differ at most in weights and numbers. -/
abbrev AllLike : List Shape → List Shape → Prop := List.Forall₂ Like

theorem Like.refl (s : Shape) : Like s s := rfl

theorem Like.symm {s t : Shape} (h : Like s t) : Like t s := Eq.symm h

theorem allLike_iff {ps qs : List Shape} : AllLike ps qs ↔ bares ps = bares qs := by
  simp only [bares_eq_map]
  induction ps generalizing qs with
  | nil => cases qs <;> simp
  | cons p ps ih =>
    cases qs with
    | nil => simp
    | cons q qs => simp [List.forall₂_cons, ih, Like]

theorem AllLike.trans {ps qs rs : List Shape} (h : AllLike ps qs) (h' : AllLike qs rs) :
    AllLike ps rs := by
  rw [allLike_iff] at *
  exact h.trans h'

theorem AllLike.append {ps qs ps' qs' : List Shape} (h : AllLike ps qs) (h' : AllLike ps' qs') :
    AllLike (ps ++ ps') (qs ++ qs') :=
  List.rel_append h h'

theorem AllLike.reverse {ps qs : List Shape} (h : AllLike ps qs) :
    AllLike ps.reverse qs.reverse :=
  List.rel_reverse h

/-! ### Functions that do not see weights -/

mutual

@[simp] theorem height_bare : ∀ s : Shape, s.bare.height = s.height
  | empty | set _ | notBreak | any | test _ | literal _ _ _ => rfl
  | captured _ body => by simp [bare, height, height_bare body]
  | repeated _ _ body => by simp [bare, height, height_bare body]
  | cat parts _ => by simp [bare, height, highest_bares parts]
  | alt parts _ => by simp [bare, height, highest_bares parts]

@[simp] theorem highest_bares : ∀ parts : List Shape, highest (bares parts) = highest parts
  | [] => rfl
  | part :: rest => by simp [bares, highest, height_bare part, highest_bares rest]

end

mutual

@[simp] theorem bare_allWeighed : ∀ s : Shape, s.allWeighed.bare = s.bare
  | empty | set _ | notBreak | any | test _ | literal _ _ _ => rfl
  | captured _ body => by simp [allWeighed, bare, bare_allWeighed body]
  | repeated _ _ body => by simp [allWeighed, bare, bare_allWeighed body]
  | cat parts _ => by simp [allWeighed, bare, bares_eachWeighed parts]
  | alt parts _ => by simp [allWeighed, bare, bares_eachWeighed parts]

@[simp] theorem bares_eachWeighed : ∀ parts : List Shape, bares (eachWeighed parts) = bares parts
  | [] => rfl
  | part :: rest => by simp [eachWeighed, bares, bare_allWeighed part, bares_eachWeighed rest]

end

theorem length_bares (parts : List Shape) : (bares parts).length = parts.length := by
  simp [bares_eq_map]

theorem length_eachWeighed (parts : List Shape) : (eachWeighed parts).length = parts.length := by
  induction parts with
  | nil => rfl
  | cons part rest ih => simp [eachWeighed, ih]

mutual

/-- A shape that is weighed afresh weighs what it weighs without notes. -/
theorem weight_allWeighed_bare : ∀ s : Shape, s.bare.allWeighed.weight = s.allWeighed.weight
  | empty | set _ | notBreak | any | test _ | literal _ _ _ => rfl
  | captured _ body => by simp [allWeighed, bare, weight, weight_allWeighed_bare body]
  | repeated _ _ body => by simp [allWeighed, bare, weight, weight_allWeighed_bare body]
  | cat parts _ => by simp [allWeighed, bare, weight, total_eachWeighed_bares parts]
  | alt parts _ => by
      simp [allWeighed, bare, weight, total_eachWeighed_bares parts, length_eachWeighed,
        length_bares]

theorem total_eachWeighed_bares :
    ∀ parts : List Shape, total (eachWeighed (bares parts)) = total (eachWeighed parts)
  | [] => rfl
  | part :: rest => by
      simp [bares, eachWeighed, total, weight_allWeighed_bare part, total_eachWeighed_bares rest]

end

@[simp] theorem bare_weighed (s : Shape) : s.weighed.bare = s.bare := by
  cases s <;> rfl

@[simp] theorem bare_withNote (noted : Option Nat) (s : Shape) :
    (s.withNote noted).bare = s.bare := by
  cases s <;> rfl

@[simp] theorem listed_bare (s : Shape) : s.bare.listed = s.listed := by
  cases s <;> rfl

@[simp] theorem oneOf?_bare (s : Shape) : s.bare.oneOf? = s.oneOf? := by
  match s with
  | literal [] _ _ | literal [_] _ _ | literal (_ :: _ :: _) _ _ => rfl
  | empty | set _ | notBreak | any | test _ => rfl
  | captured _ _ | repeated _ _ _ | cat _ _ | alt _ _ => rfl

theorem bare_asString (flags : Flags) (s : Shape) :
    (s.asString flags).bare = s.bare.asString flags := by
  cases s with
  | set members =>
    simp only [asString, bare]
    cases singleCode? members <;> rfl
  | _ => rfl

theorem bare_clean (s : Shape) : s.clean.bare = s.bare.clean := by
  cases s with
  | set members =>
    simp only [clean, bare]
    split
    · rfl
    · split <;> rfl
  | _ => rfl

theorem bare_merge (a b : Shape) (s t : CharSet) :
    (merge a b s t).bare = merge a.bare b.bare s t := by
  cases a <;> cases b <;> simp only [merge, bare] <;> split <;> rfl

theorem bare_dropString (n : Nat) (s : Shape) : (s.dropString n).bare = s.bare.dropString n := by
  cases s with
  | literal codes flags noted =>
    simp only [dropString, bare]
    split <;> rfl
  | _ => rfl

@[simp] theorem leadingString_bare (s : Shape) : s.bare.leadingString = s.leadingString := by
  match s with
  | cat [] _ => rfl
  | cat (part :: rest) _ =>
    simp only [bare, bares]
    cases part <;> rfl
  | empty | set _ | notBreak | any | test _ | literal _ _ _ => rfl
  | captured _ _ | repeated _ _ _ | alt _ _ => rfl

theorem sameChar_bare (a b : Shape) : sameChar a.bare b.bare = sameChar a b := by
  match a, b with
  | literal [] _ _, literal [] _ _ => rfl
  | literal [] _ _, literal (_ :: _) _ _ => rfl
  | literal [_] _ _, literal [] _ _ => rfl
  | literal [_] _ _, literal [_] _ _ => rfl
  | literal [_] _ _, literal (_ :: _ :: _) _ _ => rfl
  | literal (_ :: _ :: _) _ _, literal _ _ _ => rfl
  | literal [] _ _, empty | literal [] _ _, set _ | literal [] _ _, notBreak
  | literal [] _ _, any | literal [] _ _, test _ | literal [] _ _, captured _ _
  | literal [] _ _, repeated _ _ _ | literal [] _ _, cat _ _ | literal [] _ _, alt _ _ => rfl
  | literal [_] _ _, empty | literal [_] _ _, set _ | literal [_] _ _, notBreak
  | literal [_] _ _, any | literal [_] _ _, test _ | literal [_] _ _, captured _ _
  | literal [_] _ _, repeated _ _ _ | literal [_] _ _, cat _ _ | literal [_] _ _, alt _ _ => rfl
  | literal (_ :: _ :: _) _ _, empty | literal (_ :: _ :: _) _ _, set _
  | literal (_ :: _ :: _) _ _, notBreak | literal (_ :: _ :: _) _ _, any
  | literal (_ :: _ :: _) _ _, test _ | literal (_ :: _ :: _) _ _, captured _ _
  | literal (_ :: _ :: _) _ _, repeated _ _ _ | literal (_ :: _ :: _) _ _, cat _ _
  | literal (_ :: _ :: _) _ _, alt _ _ => rfl
  | empty, _ | test _, _ | captured _ _, _ | repeated _ _ _, _ | cat _ _, _ | alt _ _, _ => rfl
  | set _, b => cases b <;> rfl
  | notBreak, b => cases b <;> rfl
  | any, b => cases b <;> rfl

theorem sameStart_bare (a b : Shape) : sameStart a.bare b.bare = sameStart a b := by
  cases a with
  | repeated c g s =>
    cases c with
    | times min max =>
      cases max with
      | some max =>
        cases b with
        | repeated d h t =>
          cases d with
          | times min' max' =>
            cases max' with
            | some max' => simp [sameStart, bare, sameChar_bare s t]
            | none => rfl
          | _ => rfl
        | _ => rfl
      | none => rfl
    | _ => rfl
  | empty => exact sameChar_bare empty b
  | test condition => exact sameChar_bare (test condition) b
  | captured index body => exact sameChar_bare (captured index body) b
  | cat parts noted => exact sameChar_bare (cat parts noted) b
  | alt parts noted => exact sameChar_bare (alt parts noted) b
  | literal codes flags noted => exact sameChar_bare (literal codes flags noted) b
  | set members => exact sameChar_bare (set members) b
  | notBreak => exact sameChar_bare notBreak b
  | any => exact sameChar_bare any b

theorem leadingPart_bare (s : Shape) : s.bare.leadingPart = s.leadingPart.map bare := by
  match s with
  | cat [] _ => rfl
  | cat (part :: rest) _ => cases part <;> rfl
  | empty | set _ | notBreak | any | test _ | literal _ _ _ => rfl
  | captured _ _ | repeated _ _ _ | alt _ _ => rfl

/-! ### Joined strings -/

/-- A part put in front of parts whose strings have been joined. -/
def joinTo : Shape → List Shape → List Shape
  | literal a f noted, literal b g m :: rest =>
      if f.fold == g.fold then literal (a ++ b) f noted :: rest
      else literal a f noted :: literal b g m :: rest
  | part, rest => part :: rest

theorem joinStrings_cons (part : Shape) (rest : List Shape) :
    joinStrings (part :: rest) = joinTo part (joinStrings rest) := by
  rw [joinStrings, List.foldr_cons, ← joinStrings]
  unfold joinTo
  rcases part with _ | _ <;> rcases joinStrings rest with _ | ⟨next, others⟩ <;> try rfl
  cases next <;> rfl

@[simp] theorem joinStrings_singleton (part : Shape) : joinStrings [part] = [part] := by
  cases part <;> rfl

theorem bares_joinTo (part : Shape) (rest : List Shape) :
    bares (joinTo part rest) = joinTo part.bare (bares rest) := by
  cases part with
  | literal a f noted =>
    cases rest with
    | nil => rfl
    | cons next others =>
      cases next with
      | literal b g m =>
        simp only [joinTo, bares, bare]
        split <;> rfl
      | _ => rfl
  | _ => rfl

theorem bares_joinStrings (parts : List Shape) :
    bares (joinStrings parts) = joinStrings (bares parts) := by
  induction parts with
  | nil => rfl
  | cons part rest ih => rw [joinStrings_cons, bares_joinTo, ih, bares, joinStrings_cons]

theorem AllLike.joinStrings {ps qs : List Shape} (h : AllLike ps qs) :
    AllLike (joinStrings ps) (joinStrings qs) := by
  rw [allLike_iff, bares_joinStrings, bares_joinStrings, allLike_iff.1 h]

/-- A part that is joined to joined strings is joined to all that follows them. -/
theorem joinStrings_joinTo_append (part : Shape) (xs ys : List Shape) :
    joinStrings (joinTo part xs ++ ys) = joinTo part (joinStrings (xs ++ ys)) := by
  have apart (h : joinTo part xs = part :: xs) :
      joinStrings (joinTo part xs ++ ys) = joinTo part (joinStrings (xs ++ ys)) := by
    rw [h, List.cons_append, joinStrings_cons]
  cases part with
  | literal a f noted =>
    cases xs with
    | nil => exact apart rfl
    | cons next rest =>
      cases next with
      | literal b g m =>
        by_cases fold : f.fold = g.fold
        · simp only [joinTo, fold, beq_self_eq_true, if_true, List.cons_append, joinStrings_cons]
          cases joinStrings (rest ++ ys) with
          | nil => simp [fold]
          | cons third others =>
            cases third with
            | literal c h n =>
              by_cases fold' : g.fold = h.fold
              · simp [fold, fold']
              · simp [fold, fold']
            | _ => simp [fold]
        · exact apart (by simp [joinTo, fold])
      | _ => exact apart rfl
  | _ => exact apart rfl

/-- Strings that have been joined can be joined again with what follows. -/
theorem joinStrings_append (xs ys : List Shape) :
    joinStrings (xs ++ ys) = joinStrings (joinStrings xs ++ ys) := by
  induction xs with
  | nil => rfl
  | cons x xs ih =>
    rw [List.cons_append, joinStrings_cons, ih, joinStrings_cons, joinStrings_joinTo_append]

/-! ### Heights -/

theorem height_asString (flags : Flags) (shape : Shape) :
    (shape.asString flags).height = shape.height := by
  cases shape with
  | set members =>
    rw [asString]
    split <;> simp [height]
  | _ => rfl

theorem height_clean (shape : Shape) : shape.clean.height = shape.height := by
  cases shape with
  | set members =>
    rw [clean]
    split
    · simp [height]
    · split <;> simp [height]
  | _ => rfl

end Shape

end Pattern

end Rulebook

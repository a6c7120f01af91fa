import Rulebook.Proofs.Pattern.Portion

/-!
# Patterns without a lead

A pattern that asks for no surrogate is found by its program, not by a lead: `Lead.ofShape?` gives
nothing for a tame shape. Nor does it for a shape that begins with a group that captures, or with a
repetition of one, because no string stands at the start of such a pattern.
-/

namespace Rulebook

namespace Pattern

/-- True of a set that is not a single surrogate. -/
def CharSet.Spoken (s : CharSet) : Prop :=
  ∀ code, s.ranges = [(code, code)] → Net.isSurrogate code = false

/-! ### Expressions -/

namespace Expr

/-- True of an expression that asks for no surrogate and counts nothing. -/
def Spoken : Expr → Prop
  | empty => True
  | one set => CharSet.Spoken set
  | test _ => True
  | group _ _ e => e.Spoken
  | cat a b => a.Spoken ∧ b.Spoken
  | alt a b => a.Spoken ∧ b.Spoken
  | star _ e => e.Spoken
  | plus _ e => e.Spoken
  | opt _ e => e.Spoken
  | times _ _ _ _ => False

theorem spoken_concat {es : List Expr} (h : ∀ e ∈ es, e.Spoken) : (concat es).Spoken := by
  fun_induction concat es with
  | case1 => trivial
  | case2 e => exact h e (by simp)
  | case3 e rest several ih => exact ⟨h e (by simp), ih fun d mem => h d (by simp [mem])⟩

theorem spoken_foldl_alt {rest : List Expr} {first : Expr} (here : first.Spoken)
    (h : ∀ e ∈ rest, e.Spoken) : (rest.foldl .alt first).Spoken := by
  induction rest generalizing first with
  | nil => exact here
  | cons e rest ih => exact ih ⟨here, h e (by simp)⟩ fun d mem => h d (by simp [mem])

theorem spoken_writtenOut {greedy : Bool} {e : Expr} (h : e.Spoken) {count : Count}
    (plain : ∀ min max, count ≠ .times min max) : (writtenOut greedy e count).Spoken := by
  cases count with
  | star =>
    rw [writtenOut]
    unfold anyTimes
    split
    · trivial
    · split <;> exact h
    · exact h
  | plus =>
    rw [writtenOut]
    unfold atLeastOnce
    split
    · trivial
    · split <;> exact h
    · exact h
  | opt =>
    rw [writtenOut]
    unfold atMostOnce
    split
    · trivial
    · split <;> exact h
    · exact h
  | times min max => exact absurd rfl (plain min max)

end Expr

/-! ### Places -/

/-- True of a place that asks for no surrogate. -/
def Place.Spoken (place : Place) : Prop :=
  ∀ set next, place = .one set next → CharSet.Spoken set

/-- True of a segment no place of which asks for a surrogate. -/
def Segment.Spoken (s : Segment) : Prop := ∀ start next, ∀ place ∈ s.places start next, place.Spoken

namespace Segment

theorem spoken_single {nullable : Bool} {place : Nat → Place} (h : ∀ next, (place next).Spoken) :
    (single nullable place).Spoken := by
  intro start next p mem
  cases List.mem_singleton.1 mem
  exact h next

theorem spoken_choice (greedy : Bool) (into past : Nat) : (Place.choice greedy into past).Spoken := by
  intro set next eq
  unfold Place.choice at eq
  split at eq <;> cases eq

variable {a b : Segment}

theorem spoken_cat (ha : a.Spoken) (hb : b.Spoken) : (cat a b).Spoken := by
  intro start next p mem
  obtain mem | mem := List.mem_append.1 mem
  · exact ha _ _ p mem
  · exact hb _ _ p mem

theorem spoken_alt (ha : a.Spoken) (hb : b.Spoken) : (alt a b).Spoken := by
  intro start next p mem
  obtain mem | mem := List.mem_append.1 mem
  · obtain mem | mem := List.mem_append.1 mem
    · exact ha _ _ p mem
    · exact hb _ _ p mem
  · cases List.mem_singleton.1 mem
    exact nofun

theorem spoken_opt (greedy : Bool) (ha : a.Spoken) : (opt greedy a).Spoken := by
  intro start next p mem
  obtain mem | mem := List.mem_append.1 mem
  · exact ha _ _ p mem
  · cases List.mem_singleton.1 mem
    exact spoken_choice greedy _ _

theorem spoken_plus (greedy : Bool) (ha : a.Spoken) : (plus greedy a).Spoken := by
  intro start next p mem
  obtain mem | mem := List.mem_append.1 mem
  · exact ha _ _ p mem
  · cases List.mem_singleton.1 mem
    exact spoken_choice greedy _ _

theorem spoken_star (greedy : Bool) (ha : a.Spoken) : (star greedy a).Spoken := by
  unfold star
  split
  · exact spoken_opt greedy (spoken_plus greedy ha)
  · exact spoken_plus greedy ha

end Segment

theorem Expr.Spoken.segment {e : Expr} (h : e.Spoken) : e.segment.Spoken := by
  induction e with
  | empty => exact Segment.spoken_single fun _ => nofun
  | one set =>
    refine Segment.spoken_single fun next s next' eq => ?_
    cases eq
    exact h
  | test condition => exact Segment.spoken_single fun _ => nofun
  | group index name e ih =>
    have mark : (Segment.single true .mark).Spoken := Segment.spoken_single fun _ => nofun
    exact Segment.spoken_cat (Segment.spoken_cat mark (ih h)) mark
  | cat a b ha hb => exact Segment.spoken_cat (ha h.1) (hb h.2)
  | alt a b ha hb => exact Segment.spoken_alt (ha h.1) (hb h.2)
  | star greedy e ih => exact Segment.spoken_star greedy (ih h)
  | plus greedy e ih => exact Segment.spoken_plus greedy (ih h)
  | opt greedy e ih => exact Segment.spoken_opt greedy (ih h)
  | times min max greedy e => exact h.elim

/-! ### Shapes -/

namespace Shape

mutual

theorem spoken_toExpr : ∀ s : Shape, s.isTame = true → s.toExpr.Spoken
  | empty, _ => trivial
  | literal codes flags noted, h => by
      simp only [isTame, Bool.and_eq_true, List.all_eq_true, Bool.not_eq_true'] at h
      refine Expr.spoken_concat fun e mem => ?_
      obtain ⟨code, here, rfl⟩ := List.mem_map.1 mem
      intro c single
      rw [h.1] at single
      cases single
      exact h.2 code here
  | set members, h => by
      simp only [isTame, Bool.and_eq_true] at h
      intro code single
      have := h.1
      simpa [single] using this
  | notBreak, _ => nofun
  | any, _ => nofun
  | test _, _ => trivial
  | captured _ body, h => spoken_toExpr body h
  | repeated count greedy body, h => by
      cases count with
      | times min max => cases h
      | _ => exact Expr.spoken_writtenOut (spoken_toExpr body h) nofun
  | cat parts _, h => Expr.spoken_concat (spoken_toExprs parts h)
  | alt parts _, h => by
      have all := spoken_toExprs parts h
      rw [toExpr]
      split
      · trivial
      · rename_i first rest exprs
        rw [exprs] at all
        exact Expr.spoken_foldl_alt (all first (by simp)) fun e mem => all e (by simp [mem])

theorem spoken_toExprs : ∀ parts : List Shape, areTame parts = true →
    ∀ e ∈ toExprs parts, e.Spoken
  | [], _ => nofun
  | part :: rest, h => by
      simp only [areTame, Bool.and_eq_true] at h
      intro e mem
      obtain rfl | mem := List.mem_cons.1 mem
      · exact spoken_toExpr part h.1
      · exact spoken_toExprs rest h.2 e mem

end

mutual

theorem isTame_bare : ∀ s : Shape, s.bare.isTame = s.isTame
  | empty | set _ | notBreak | any | test _ | literal _ _ _ => rfl
  | captured _ body => isTame_bare body
  | repeated count greedy body => by
      cases count with
      | times min max => rfl
      | _ => exact isTame_bare body
  | cat parts _ => areTame_bares parts
  | alt parts _ => areTame_bares parts

theorem areTame_bares : ∀ parts : List Shape, areTame (bares parts) = areTame parts
  | [] => rfl
  | part :: rest => by rw [bares, areTame, areTame, isTame_bare part, areTame_bares rest]

end

theorem Like.isTame {s t : Shape} (h : Like s t) : s.isTame = t.isTame := by
  rw [← isTame_bare s, h, isTame_bare]

end Shape

/-! ### Nets -/

namespace Net

/-- True of a net no place of which asks for a surrogate. -/
def Spoken (net : Net) : Prop := ∀ n, (net.place n).Spoken

theorem spoken_ofExpr {e : Expr} (h : e.Spoken) : (ofExpr e).Spoken := by
  intro n
  unfold place
  rw [Array.getD_eq_getD_getElem?]
  cases found : (ofExpr e).places[n]? with
  | none => exact nofun
  | some p =>
    have mem : p ∈ (Place.fail :: e.segment.places 1 (e.segment.size + 1)) ++ [Place.accept] := by
      have := Array.mem_of_getElem? found
      simpa [ofExpr] using this
    obtain mem | mem := List.mem_append.1 mem
    · obtain rfl | mem := List.mem_cons.1 mem
      · exact nofun
      · exact h.segment _ _ p mem
    · cases List.mem_singleton.1 mem
      exact nofun

theorem Spoken.string {net : Net} (h : net.Spoken) (fuel n : Nat) :
    (net.string fuel n).any isSurrogate = false := by
  induction fuel generalizing n with
  | zero => rfl
  | succ fuel ih =>
    rw [Net.string]
    split
    · rename_i code last next found
      split
      · rename_i same
        simp only [Bool.and_eq_true, beq_iff_eq] at same
        obtain ⟨rfl, -⟩ := same
        rw [List.any_cons, ih, h n _ _ found code rfl]
        rfl
      · rfl
    · rfl

end Net

/-- A string that asks for no surrogate does not matter. -/
theorem Lead.ofShape?_of_lead? {shape : Shape}
    (h : ∀ codes, (Net.ofExpr shape.toExpr).lead? = some codes →
      codes.any Net.isSurrogate = false) : Lead.ofShape? shape = none := by
  unfold Lead.ofShape?
  split
  · rfl
  · simp only
    split
    · rfl
    · rename_i codes lead
      rw [h codes lead, Bool.false_and]
      rfl

theorem Lead.ofShape?_eq_none {shape : Shape} (h : shape.isTame = true) :
    Lead.ofShape? shape = none := by
  have spoken := Net.spoken_ofExpr (Shape.spoken_toExpr shape h)
  apply Lead.ofShape?_of_lead?
  intro codes lead
  unfold Net.lead? at lead
  split at lead
  · cases lead
    exact spoken.string _ _
  · cases lead

/-! ### Patterns that begin with a group -/

/-- True of a bound of a group, and of a fork. -/
def Place.isTurn : Place → Bool
  | .mark _ => true
  | .fork _ _ => true
  | _ => false

theorem Place.isTurn_choice (greedy : Bool) (into past : Nat) :
    (Place.choice greedy into past).isTurn = true := by
  cases greedy <;> rfl

namespace Segment

/-- True of a segment that has as many places as it says. -/
def Sized (a : Segment) : Prop := ∀ start next, (a.places start next).length = a.size

variable {a b : Segment}

theorem sized_single (nullable : Bool) (place : Nat → Place) : (single nullable place).Sized :=
  fun _ _ => rfl

theorem Sized.cat (ha : a.Sized) (hb : b.Sized) : (cat a b).Sized := by
  intro start next
  simp [Segment.cat, ha _ _, hb _ _]

theorem Sized.alt (ha : a.Sized) (hb : b.Sized) : (alt a b).Sized := by
  intro start next
  simp [Segment.alt, ha _ _, hb _ _, Nat.add_assoc]

theorem Sized.opt (ha : a.Sized) (greedy : Bool) : (opt greedy a).Sized := by
  intro start next
  simp [Segment.opt, ha _ _]

theorem Sized.plus (ha : a.Sized) (greedy : Bool) : (plus greedy a).Sized := by
  intro start next
  simp [Segment.plus, ha _ _]

theorem Sized.star (ha : a.Sized) (greedy : Bool) : (star greedy a).Sized := by
  unfold Segment.star
  split
  · exact (ha.plus greedy).opt greedy
  · exact ha.plus greedy

theorem Sized.copies (ha : a.Sized) (n : Nat) : (copies a n).Sized := by
  fun_induction Segment.copies a n with
  | case1 => exact sized_single _ _
  | case2 => exact ha
  | case3 n _ ih => exact ha.cat ih

theorem Sized.upTo (ha : a.Sized) (greedy : Bool) (n : Nat) : (upTo greedy a n).Sized := by
  fun_induction Segment.upTo greedy a n with
  | case1 => exact sized_single _ _
  | case2 => exact ha.opt greedy
  | case3 n _ ih => exact (ha.cat ih).opt greedy

theorem Sized.times (ha : a.Sized) (greedy : Bool) (min : Nat) (max : Option Nat) :
    (times greedy a min max).Sized := by
  unfold Segment.times
  split
  · exact ha.star greedy
  · exact ha.plus greedy
  · exact (ha.copies _).cat (ha.plus greedy)
  · exact ha.upTo greedy _
  · split
    · exact ha.copies _
    · exact (ha.copies _).cat (ha.upTo greedy _)

/-- True of a segment whose way in is a turn. -/
def Turns (a : Segment) : Prop := ∀ start next, ∃ n place,
  a.entry start = start + n ∧ (a.places start next)[n]? = some place ∧ place.isTurn = true

theorem Turns.cat (ha : a.Turns) : (cat a b).Turns := by
  intro start next
  obtain ⟨n, place, entry, found, turn⟩ := ha start (b.entry (start + a.size))
  exact ⟨n, place, entry, by simp [Segment.cat, List.getElem?_append_left
    (List.getElem?_eq_some_iff.1 found).1, found], turn⟩

theorem turns_mark : (single true .mark).Turns := fun _ next => ⟨0, .mark next, rfl, rfl, rfl⟩

theorem turns_opt (ha : a.Sized) (greedy : Bool) : (opt greedy a).Turns := by
  intro start next
  refine ⟨a.size, .choice greedy (a.entry start) next, rfl, ?_, Place.isTurn_choice ..⟩
  rw [← ha start next]
  simp [Segment.opt]

theorem Turns.plus (ha : a.Turns) (greedy : Bool) : (plus greedy a).Turns := by
  intro start next
  obtain ⟨n, place, entry, found, turn⟩ := ha start (start + a.size)
  exact ⟨n, place, entry, by simp [Segment.plus, List.getElem?_append_left
    (List.getElem?_eq_some_iff.1 found).1, found], turn⟩

theorem turns_star (ha : a.Sized) (greedy : Bool) : (star greedy a).Turns := by
  unfold Segment.star
  split
  · exact turns_opt (ha.plus greedy) greedy
  · intro start next
    refine ⟨a.size, .choice greedy (a.entry start) next, rfl, ?_, Place.isTurn_choice ..⟩
    rw [← ha start (start + a.size)]
    simp [Segment.plus]

end Segment

theorem Expr.sized_segment (e : Expr) : e.segment.Sized := by
  induction e with
  | empty => exact Segment.sized_single _ _
  | one => exact Segment.sized_single _ _
  | test => exact Segment.sized_single _ _
  | group index name e ih =>
    exact ((Segment.sized_single _ _).cat ih).cat (Segment.sized_single _ _)
  | cat a b ha hb => exact ha.cat hb
  | alt a b ha hb => exact ha.alt hb
  | star greedy e ih => exact ih.star greedy
  | plus greedy e ih => exact ih.plus greedy
  | opt greedy e ih => exact ih.opt greedy
  | times min max greedy e ih => exact ih.times greedy min max

theorem Shape.turns_toExpr {s : Shape} (h : s.isOpaque = true) : s.toExpr.segment.Turns := by
  have group (index : Nat) (body : Shape) :
      (Expr.group index [] body.toExpr).segment.Turns := Segment.turns_mark.cat.cat
  cases s with
  | captured index body => exact group index body
  | repeated count greedy body =>
    cases count with
    | times => simp [isOpaque] at h
    | star =>
      cases body with
      | captured index body => exact Segment.turns_star (Expr.sized_segment _) greedy
      | _ => simp [isOpaque] at h
    | plus =>
      cases body with
      | captured index body => exact (group index body).plus greedy
      | _ => simp [isOpaque] at h
    | opt =>
      cases body with
      | captured index body => exact Segment.turns_opt (Expr.sized_segment _) greedy
      | _ => simp [isOpaque] at h
  | _ => simp [isOpaque] at h

namespace Net

theorem string_of_isTurn {net : Net} {n : Nat} (h : (net.place n).isTurn = true) (fuel : Nat) :
    net.string fuel n = [] := by
  cases fuel with
  | zero => rfl
  | succ fuel =>
    rw [string]
    split
    · rename_i place
      rw [place] at h
      cases h
    · rfl

theorem pastSkips_of_isTurn {net : Net} {n : Nat} (h : (net.place n).isTurn = true) (fuel : Nat) :
    net.pastSkips fuel n = n := by
  cases fuel with
  | zero => rfl
  | succ fuel =>
    rw [pastSkips]
    split
    · rename_i place
      rw [place] at h
      cases h
    · rfl

/-- A net whose way in is a turn has no lead. -/
theorem lead?_of_turns {e : Expr} (h : e.segment.Turns) : (ofExpr e).lead? = none := by
  obtain ⟨n, place, entry, found, turn⟩ := h 1 (e.segment.size + 1)
  have start : (ofExpr e).place (ofExpr e).start = place := by
    have bound := (List.getElem?_eq_some_iff.1 found).1
    simp [Net.place, ofExpr, entry, Nat.add_comm 1 n, List.getElem?_append_left bound, found]
  unfold lead?
  rw [start]
  cases place <;> simp_all [Place.isTurn]

/-- A net that is tied to the start of the text before a turn has an empty lead. -/
theorem lead?_test_turns {e f : Expr} (h : e.segment.Turns) :
    (ofExpr (.cat (.test .beginText) (.cat e f))).lead? = some [] := by
  generalize whole : Expr.cat (.test .beginText) (.cat e f) = w
  obtain ⟨n, place, entry, found, turn⟩ := h 2 (f.segment.entry (2 + e.segment.size))
  have bound := (List.getElem?_eq_some_iff.1 found).1
  have start : (ofExpr w).place (ofExpr w).start = .test .beginText (2 + n) := by
    simp [← whole, Net.place, ofExpr, Expr.segment, Segment.cat, Segment.single, entry]
  have next : (ofExpr w).place (2 + n) = place := by
    simp [← whole, Net.place, ofExpr, Expr.segment, Segment.cat, Segment.single, Nat.add_comm 2 n,
      List.getElem?_append_left bound, found]
  rw [← next] at turn
  unfold lead?
  rw [start]
  simp only
  rw [pastSkips_of_isTurn turn, string_of_isTurn turn]

end Net

namespace Shape

theorem isOpaque_bare (s : Shape) : s.bare.isOpaque = s.isOpaque := by
  cases s with
  | repeated count greedy body => cases count <;> cases body <;> rfl
  | _ => rfl

theorem Like.isOpaque {s t : Shape} (h : Like s t) : s.isOpaque = t.isOpaque := by
  rw [← isOpaque_bare s, ← isOpaque_bare t, h]

theorem eq_test_of_bare {s : Shape} {condition : Assertion} (h : s.bare = test condition) :
    s = test condition := by
  cases s <;> simp_all [bare]

/-- A shape that is like three parts between which nothing was joined consists of such parts. -/
theorem Like.between {s part : Shape} {a b : Assertion} (h : Like s (cat [test a, part, test b] none)) :
    ∃ part' noted, s = cat [test a, part', test b] noted ∧ Like part' part := by
  cases s with
  | cat parts noted =>
    simp only [Like, bare, bares_eq_map, cat.injEq, and_true, List.map_cons, List.map_nil] at h
    obtain ⟨first, rest, rfl, start, rest_eq⟩ := List.map_eq_cons_iff.1 h
    obtain ⟨middle, rest, rfl, like, rest_eq⟩ := List.map_eq_cons_iff.1 rest_eq
    obtain ⟨last, rest, rfl, stop, rest_eq⟩ := List.map_eq_cons_iff.1 rest_eq
    cases List.map_eq_nil_iff.1 rest_eq
    cases eq_test_of_bare start
    cases eq_test_of_bare stop
    exact ⟨middle, noted, rfl, like⟩
  | _ => simp [Like, bare] at h

end Shape

theorem Lead.ofShape?_of_isOpaque {shape : Shape} (h : shape.isOpaque = true) :
    Lead.ofShape? shape = none := by
  apply Lead.ofShape?_of_lead?
  intro codes lead
  rw [Net.lead?_of_turns (Shape.turns_toExpr h)] at lead
  cases lead

/-- What begins with a group has no lead between the bounds of the text either. -/
theorem Lead.ofShape?_of_between {shape part : Shape}
    (like : Shape.Like shape (.cat [.test .beginText, part, .test .endText] none))
    (h : part.isOpaque = true) : Lead.ofShape? shape = none := by
  obtain ⟨part', noted, rfl, same⟩ := like.between
  apply Lead.ofShape?_of_lead?
  intro codes lead
  have turns := Shape.turns_toExpr (same.isOpaque.trans h)
  cases lead.symm.trans (Net.lead?_test_turns (f := .test .endText) turns)
  rfl

end Pattern

end Rulebook

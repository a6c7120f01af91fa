import Rulebook.Proofs.Pattern.Choosing
import Rulebook.Proofs.Pattern.Lead
import Rulebook.Proofs.Pattern.Nesting
import Rulebook.Proofs.Pattern.Reading

/-!
# Patterns that can match have no lead

A pattern with a passage has a possible shape (`Piece.possible_shape`), and no string that the net
of such a shape begins with holds a surrogate. So a pattern that matches anything is found by its
program: `Piece.lead_none`.
-/

namespace Rulebook

namespace Pattern

/-! ### Patterns -/

/-- True of an expression with a shape that is possible if the expression is. -/
def Expr.Draws (e : Expr) (s : Shape) : Prop := e.Possible → s.Possible

theorem Expr.draws_repeated {e : Expr} {s : Shape} (h : e.Draws s) (count : Count) (greedy : Bool) :
    (Expr.repeated count greedy e).Draws (.repeated count greedy s) := by
  intro possible
  cases count with
  | star => exact .inl trivial
  | plus => exact .inr (h possible)
  | opt => exact .inl trivial
  | times min max => exact possible.imp id h

theorem possible_of_draws {es : List Expr} {parts : List Shape}
    (h : List.Forall₂ Expr.Draws es parts) (all : ∀ e ∈ es, e.Possible) :
    ∀ part ∈ parts, part.Possible := by
  induction h with
  | nil => exact nofun
  | cons draws _ ih =>
    obtain ⟨here, all⟩ := List.forall_mem_cons.1 all
    exact List.forall_mem_cons.2 ⟨draws here, ih all⟩

/-- True of a layer each part of which is possible if its expression is, and one of whose finished
    alternatives is if one of theirs is. -/
structure Layer.Sound (l : Layer) : Prop where
  parts : List.Forall₂ Expr.Draws l.exprs l.parts
  choices : (∃ e ∈ l.finished, e.Possible) → ∃ s ∈ l.choices, s.Possible

namespace Sketch

/-- True of a sketch all layers of which are sound. -/
structure Sound (s : Sketch) : Prop where
  top : s.top.Sound
  outer : ∀ layer ∈ s.outer, layer.Sound

variable {s s' : Sketch}

theorem Sound.push (h : s.Sound) {e : Expr} {shape : Shape} (draws : e.Draws shape)
    (pushed : s.push e shape = some s') : s'.Sound := by
  obtain rfl := eq_of_within pushed
  exact ⟨⟨.cons (fun possible => Shape.possible_asString _ (draws possible)) h.top.parts,
    h.top.choices⟩, h.outer⟩

theorem Sound.endAlternative (h : s.Sound) (ended : s.endAlternative = some s') : s'.Sound := by
  obtain rfl := eq_of_within ended
  refine ⟨⟨.nil, fun some => Shape.possible_also ?_⟩, h.outer⟩
  obtain ⟨e, mem, possible⟩ := some
  obtain rfl | mem := List.mem_cons.1 mem
  · left
    rw [Expr.possible_concat] at possible
    refine Shape.possible_sequence fun part mem => ?_
    exact possible_of_draws h.top.parts (fun e mem => possible e (List.mem_reverse.2 mem)) part
      (List.mem_reverse.1 mem)
  · exact .inr (h.top.choices ⟨e, mem, possible⟩)

theorem Sound.finish (h : s.Sound) {parts : Expr × Shape} (finished : s.finish = some parts) :
    parts.1.Draws parts.2 := by
  unfold Sketch.finish at finished
  split at finished
  · cases finished
  · rename_i next ended
    have sound := h.endAlternative ended
    obtain rfl := eq_of_within finished
    intro possible
    have several : next.top.finished.reverse ≠ [] := by
      obtain rfl := eq_of_within ended
      simp
    obtain ⟨e, mem, possible⟩ := (Expr.possible_choice several).1 possible
    obtain ⟨shape, mem, possible⟩ := sound.top.choices ⟨e, List.mem_reverse.1 mem, possible⟩
    refine Shape.possible_asString _ (Shape.choose_gives _ ?_ _)
    exact ⟨shape.clean, List.mem_reverse.2 (List.mem_map_of_mem mem), Shape.possible_clean possible⟩

theorem Sound.leave (h : s.Sound) (left : s.leave = some s') : s'.Sound := by
  unfold Sketch.leave at left
  split at left
  · cases left
  · rename_i e shape finished
    have draws := h.finish finished
    cases outer : s.outer with
    | nil => simp [outer] at left
    | cons layer others =>
      simp only [outer] at left
      obtain ⟨here, there⟩ := List.forall_mem_cons.1 (outer ▸ h.outer)
      have around : Sound ⟨s.top.flags, layer, others, []⟩ := ⟨here, there⟩
      unfold close at left
      split at left
      · exact around.push draws left
      · have group (name : Bytes) : (Expr.group 0 name e).Draws (.captured 0 shape) := draws
        exact around.push (group _) left

theorem Sound.repeatLast (h : s.Sound) {count : Count} {marked : Bool} {text : Bytes}
    (repeated : s.repeatLast count marked text = some s') : s'.Sound := by
  unfold Sketch.repeatLast at repeated
  split at repeated
  · cases repeated
  · split at repeated
    · rename_i body before part others exprs parts
      dsimp only at repeated
      split at repeated
      · obtain rfl := eq_of_within repeated
        have related := h.top.parts
        rw [exprs, parts] at related
        cases related with
        | cons draws rest =>
          exact ⟨⟨.cons (Expr.draws_repeated draws count _) rest, h.top.choices⟩, h.outer⟩
      · cases repeated
    · cases repeated

/-- One token. -/
theorem Sound.step (h : s.Sound) {token : Token} (stepped : s.step token = some s') : s'.Sound := by
  have test (condition : Assertion) : (Expr.test condition).Draws (.test condition) :=
    fun _ => trivial
  cases token with
  | char code =>
    have draws : (Expr.char s.flags.fold code).Draws (.ofChar s.flags code) :=
      Shape.possible_ofChar
    exact h.push draws stepped
  | set items negated =>
    have draws (members : CharSet) : (Expr.one members).Draws (.set members) := id
    exact h.push (draws _) stepped
  | dot =>
    have draws : (Expr.dot s.flags.dotAll).Draws (.ofDot s.flags) := by
      intro _
      unfold Shape.ofDot
      split <;> trivial
    exact h.push draws stepped
  | caret => exact h.push (test _) stepped
  | dollar => exact h.push (test _) stepped
  | test condition => exact h.push (test _) stepped
  | capture name =>
    cases stepped
    exact ⟨⟨.nil, nofun⟩, List.forall_mem_cons.2 ⟨h.top, h.outer⟩⟩
  | enclose changes =>
    cases stepped
    exact ⟨⟨.nil, nofun⟩, List.forall_mem_cons.2 ⟨h.top, h.outer⟩⟩
  | change changes =>
    cases stepped
    exact ⟨h.top, h.outer⟩
  | close => exact h.leave stepped
  | bar => exact h.endAlternative stepped
  | «repeated» count marked text => exact h.repeatLast stepped

/-- All tokens, by induction on their number. -/
theorem Sound.run (h : s.Sound) {tokens : List Token} (ran : s.run tokens = some s') : s'.Sound := by
  induction tokens generalizing s with
  | nil =>
    cases ran
    exact h
  | cons token rest ih =>
    rw [Sketch.run] at ran
    split at ran
    · cases ran
    · rename_i next stepped
      exact ih (h.step stepped) ran

theorem sound_start : start.Sound := ⟨⟨.nil, nofun⟩, nofun⟩

end Sketch

/-- A pattern that can match has a shape that can. -/
theorem Piece.possible_shape {source : Bytes} {piece : Piece}
    (parsed : Piece.parse source = .ok piece) (h : piece.expr.Possible) : piece.shape.Possible := by
  obtain ⟨tokens, scanned⟩ := Piece.scan_of_parse parsed
  obtain ⟨parts, read, same, like⟩ := (parsed ▸ Piece.parse_follows scanned).sound
  unfold Sketch.read at read
  split at read
  · cases read
  · rename_i s ran
    split at read
    · rw [like.possible]
      refine (Sketch.sound_start.run ran).finish read ?_
      rw [← same]
      exact Expr.possible_unnumbered.2 h
    · cases read

/-! ### Shapes as expressions -/

namespace Expr

theorem possible_anyTimes (greedy : Bool) (e : Expr) : (anyTimes greedy e).Possible := by
  unfold anyTimes
  split
  · trivial
  · split <;> trivial
  · trivial

theorem possible_atMostOnce (greedy : Bool) (e : Expr) : (atMostOnce greedy e).Possible := by
  unfold atMostOnce
  split
  · trivial
  · split <;> trivial
  · trivial

theorem possible_atLeastOnce {greedy : Bool} {e : Expr} (h : e.Possible) :
    (atLeastOnce greedy e).Possible := by
  unfold atLeastOnce
  split
  · trivial
  · split <;> exact h
  · exact h

theorem possible_nested (greedy : Bool) (e : Expr) (n : Nat) : (nested greedy e n).Possible := by
  cases n <;> exact possible_atMostOnce ..

theorem possible_writtenOut {count : Count} (greedy : Bool) {e : Expr}
    (h : count.mayBeNone ∨ e.Possible) : (writtenOut greedy e count).Possible := by
  have copies {n : Nat} (h : n = 0 ∨ e.Possible) : ∀ d ∈ List.replicate n e, d.Possible := by
    intro d mem
    obtain ⟨some, rfl⟩ := List.mem_replicate.1 mem
    exact h.resolve_left some
  unfold writtenOut
  split
  · exact possible_anyTimes ..
  · exact possible_atLeastOnce (h.resolve_left id)
  · exact possible_atMostOnce ..
  · trivial
  · exact possible_anyTimes ..
  · rename_i min some
    have here : e.Possible := h.resolve_left some
    rw [possible_concat, List.forall_mem_append]
    exact ⟨copies (.inr here), List.forall_mem_singleton.2 (possible_atLeastOnce here)⟩
  · rw [possible_concat, List.forall_mem_append]
    refine ⟨copies h, fun d mem => ?_⟩
    split at mem
    · cases List.mem_singleton.1 mem
      exact possible_nested ..
    · cases mem

theorem possible_foldl_alt {rest : List Expr} {first : Expr}
    (h : first.Possible ∨ ∃ e ∈ rest, e.Possible) : (rest.foldl .alt first).Possible := by
  induction rest generalizing first with
  | nil => simpa using h
  | cons e rest ih =>
    refine ih ?_
    rw [List.exists_mem_cons_iff, ← or_assoc] at h
    exact h

end Expr

namespace Shape

mutual

theorem possible_toExpr : ∀ {s : Shape}, s.Possible → s.toExpr.Possible
  | empty, _ => trivial
  | literal codes flags noted, h => by
      refine Expr.possible_concat.2 fun e mem => ?_
      obtain ⟨code, here, rfl⟩ := List.mem_map.1 mem
      exact h code here
  | set members, h => h
  | notBreak, _ => CharSet.possible_notBreak
  | any, _ => CharSet.possible_all
  | test _, _ => trivial
  | captured _ body, h => possible_toExpr (s := body) h
  | repeated count greedy body, h =>
      Expr.possible_writtenOut greedy (h.imp id possible_toExpr)
  | cat parts _, h => Expr.possible_concat.2 (possible_toExprs h)
  | alt parts _, h => by
      obtain ⟨e, mem, possible⟩ := somewhere_toExprs h
      rw [toExpr]
      split
      · trivial
      · rename_i first rest exprs
        rw [exprs] at mem
        refine Expr.possible_foldl_alt ?_
        obtain rfl | mem := List.mem_cons.1 mem
        · exact .inl possible
        · exact .inr ⟨e, mem, possible⟩

theorem possible_toExprs : ∀ {parts : List Shape}, AllPossible parts →
    ∀ e ∈ toExprs parts, e.Possible
  | [], _ => nofun
  | _ :: _, h => List.forall_mem_cons.2 ⟨possible_toExpr h.1, possible_toExprs h.2⟩

theorem somewhere_toExprs : ∀ {parts : List Shape}, SomePossible parts →
    ∃ e ∈ toExprs parts, e.Possible
  | [], h => h.elim
  | part :: _, h => by
      obtain here | others := h
      · exact ⟨part.toExpr, List.mem_cons_self .., possible_toExpr here⟩
      · obtain ⟨e, mem, possible⟩ := somewhere_toExprs others
        exact ⟨e, List.mem_cons_of_mem _ mem, possible⟩

end

end Shape

/-! ### Nets -/

namespace Net

/-- True of a place at which no string with a surrogate begins, also behind places that ask for
    nothing. -/
def Quiet (net : Net) (n : Nat) : Prop :=
  ∀ fuel skips, (net.string fuel (net.pastSkips skips n)).any isSurrogate = false

/-- True of a quiet place that is followed by one if it is the start of the text. -/
def Clear (net : Net) (n : Nat) : Prop :=
  net.Quiet n ∧ ∀ next, net.place n = .test .beginText next → net.Quiet next

/-- True of a net that holds some places from a number on. -/
def Holds (net : Net) (start : Nat) (places : List Place) : Prop :=
  ∀ i place, places[i]? = some place → net.place (start + i) = place

variable {net : Net} {n start : Nat}

theorem holds_append {ps qs : List Place} :
    net.Holds start (ps ++ qs) ↔ net.Holds start ps ∧ net.Holds (start + ps.length) qs := by
  constructor
  · refine fun h => ⟨fun i place found => h i place ?_, fun i place found => ?_⟩
    · rwa [List.getElem?_append_left (List.getElem?_eq_some_iff.1 found).1]
    · rw [Nat.add_assoc]
      refine h _ place ?_
      rwa [List.getElem?_append_right (Nat.le_add_right ..), Nat.add_sub_cancel_left]
  · rintro ⟨first, second⟩ i place found
    obtain before | after := Nat.lt_or_ge i ps.length
    · exact first i place (by rwa [List.getElem?_append_left before] at found)
    · rw [List.getElem?_append_right after] at found
      have := second _ place found
      rwa [Nat.add_assoc, Nat.add_sub_cancel' after] at this

theorem holds_singleton {place : Place} (h : net.Holds start [place]) : net.place start = place :=
  h 0 place rfl

/-- No string begins at a place that is neither a character nor to be skipped. -/
theorem quiet_of_silent (one : ∀ set next, net.place n ≠ .one set next)
    (skip : ∀ next, net.place n ≠ .skip next) : net.Quiet n := by
  intro fuel skips
  have stays : net.pastSkips skips n = n := by
    cases skips with
    | zero => rfl
    | succ skips =>
      rw [pastSkips]
      split
      · rename_i next here
        exact absurd here (skip next)
      · rfl
  rw [stays]
  cases fuel with
  | zero => rfl
  | succ fuel =>
    rw [string]
    split
    · rename_i here
      exact absurd here (one _ _)
    · rfl

theorem clear_skip {next : Nat} (here : net.place n = .skip next) (h : net.Clear next) :
    net.Clear n := by
  refine ⟨fun fuel skips => ?_, fun other there => ?_⟩
  · cases skips with
    | zero =>
      cases fuel with
      | zero => rfl
      | succ fuel => simp [pastSkips, string, here]
    | succ skips =>
      rw [pastSkips, here]
      exact h.1 fuel skips
  · rw [here] at there
    cases there

theorem clear_one {set : CharSet} {next : Nat} (here : net.place n = .one set next)
    (possible : set.Possible) (h : net.Clear next) : net.Clear n := by
  refine ⟨fun fuel skips => ?_, fun other there => ?_⟩
  · have stays : net.pastSkips skips n = n := by cases skips <;> simp [pastSkips, here]
    rw [stays]
    cases fuel with
    | zero => rfl
    | succ fuel =>
      rw [string, here]
      split
      · rename_i code last next' same
        cases same
        split
        · rename_i single
          simp only [Bool.and_eq_true, beq_iff_eq] at single
          obtain ⟨rfl, -⟩ := single
          obtain ⟨other, voiced, holds⟩ := possible
          rw [List.any_cons, ← CharSet.contains_single.1 holds, voiced]
          exact h.1 fuel 0
        · rfl
      · rfl
  · rw [here] at there
    cases there

theorem clear_test {condition : Assertion} {next : Nat} (here : net.place n = .test condition next)
    (h : net.Clear next) : net.Clear n := by
  refine ⟨quiet_of_silent (by simp [here]) (by simp [here]), fun other there => ?_⟩
  rw [here] at there
  cases there
  exact h.1

theorem clear_mark {next : Nat} (here : net.place n = .mark next) : net.Clear n :=
  ⟨quiet_of_silent (by simp [here]) (by simp [here]), fun other there => by simp [here] at there⟩

theorem clear_fork {first second : Nat} (here : net.place n = .fork first second) : net.Clear n :=
  ⟨quiet_of_silent (by simp [here]) (by simp [here]), fun other there => by simp [here] at there⟩

theorem clear_accept (here : net.place n = .accept) : net.Clear n :=
  ⟨quiet_of_silent (by simp [here]) (by simp [here]), fun other there => by simp [here] at there⟩

theorem clear_choice {greedy : Bool} {into past : Nat}
    (here : net.place n = .choice greedy into past) : net.Clear n := by
  cases greedy <;> exact clear_fork here

end Net

namespace Segment

/-- True of a segment whose way in is clear if the way on from it is, whatever net it is in. -/
def Clear (a : Segment) : Prop := ∀ (net : Net) (start next : Nat),
  net.Holds start (a.places start next) → net.Clear next → net.Clear (a.entry start)

variable {a b : Segment}

theorem clear_skip : (single true .skip).Clear :=
  fun _ _ _ holds h => Net.clear_skip (Net.holds_singleton holds) h

theorem Clear.cat (sized : a.Sized) (ha : a.Clear) (hb : b.Clear) : (cat a b).Clear := by
  intro net start next holds h
  obtain ⟨first, second⟩ := Net.holds_append.1 holds
  rw [sized] at second
  exact ha net _ _ first (hb net _ _ second h)

theorem clear_alt (sized : a.Sized) (sized' : b.Sized) : (alt a b).Clear := by
  intro net start next holds _
  obtain ⟨-, fork⟩ := Net.holds_append.1 holds
  rw [List.length_append, sized, sized', ← Nat.add_assoc] at fork
  exact Net.clear_fork (Net.holds_singleton fork)

theorem clear_opt (sized : a.Sized) (greedy : Bool) : (opt greedy a).Clear := by
  intro net start next holds _
  obtain ⟨-, choice⟩ := Net.holds_append.1 holds
  rw [sized] at choice
  exact Net.clear_choice (Net.holds_singleton choice)

theorem Clear.plus (sized : a.Sized) (ha : a.Clear) (greedy : Bool) : (plus greedy a).Clear := by
  intro net start next holds _
  obtain ⟨body, choice⟩ := Net.holds_append.1 holds
  rw [sized] at choice
  exact ha net _ _ body (Net.clear_choice (Net.holds_singleton choice))

theorem clear_star (sized : a.Sized) (greedy : Bool) : (star greedy a).Clear := by
  unfold star
  split
  · exact clear_opt (sized.plus greedy) greedy
  · intro net start next holds _
    obtain ⟨-, choice⟩ := Net.holds_append.1 holds
    rw [sized] at choice
    exact Net.clear_choice (Net.holds_singleton choice)

theorem Clear.copies (sized : a.Sized) (ha : a.Clear) (n : Nat) : (copies a n).Clear := by
  fun_induction Segment.copies a n with
  | case1 => exact clear_skip
  | case2 => exact ha
  | case3 n _ ih => exact ha.cat sized ih

theorem clear_upTo (sized : a.Sized) (greedy : Bool) (n : Nat) : (upTo greedy a n).Clear := by
  fun_cases Segment.upTo greedy a n with
  | case1 => exact clear_skip
  | case2 => exact clear_opt sized greedy
  | case3 n _ => exact clear_opt (sized.cat (sized.upTo greedy n)) greedy

theorem clear_times (sized : a.Sized) (greedy : Bool) {min : Nat} (ha : min = 0 ∨ a.Clear)
    (max : Option Nat) : (times greedy a min max).Clear := by
  unfold times
  split
  · exact clear_star sized greedy
  · exact (ha.resolve_left (by decide)).plus sized greedy
  · rename_i some _
    have ha : a.Clear := ha.resolve_left some
    exact (ha.copies sized _).cat (sized.copies _) (ha.plus sized greedy)
  · exact clear_upTo sized greedy _
  · rename_i some
    have ha : a.Clear := ha.resolve_left some
    split
    · exact ha.copies sized _
    · exact (ha.copies sized _).cat (sized.copies _) (clear_upTo sized greedy _)

end Segment

theorem Expr.clear_segment {e : Expr} (h : e.Possible) : e.segment.Clear := by
  induction e with
  | empty => exact Segment.clear_skip
  | one set => exact fun _ _ _ holds => Net.clear_one (Net.holds_singleton holds) h
  | test condition => exact fun _ _ _ holds => Net.clear_test (Net.holds_singleton holds)
  | group index name e ih =>
    have mark : (Segment.single true .mark).Clear :=
      fun _ _ _ holds _ => Net.clear_mark (Net.holds_singleton holds)
    have sized := Segment.sized_single true .mark
    exact (mark.cat sized (ih h)).cat (sized.cat e.sized_segment) mark
  | cat a b iha ihb => exact (iha h.1).cat a.sized_segment (ihb h.2)
  | alt a b iha ihb => exact Segment.clear_alt a.sized_segment b.sized_segment
  | star greedy e ih => exact Segment.clear_star e.sized_segment greedy
  | plus greedy e ih => exact (ih h).plus e.sized_segment greedy
  | opt greedy e ih => exact Segment.clear_opt e.sized_segment greedy
  | times min max greedy e ih =>
    exact Segment.clear_times e.sized_segment greedy (h.imp id ih) max

/-- The string that the net of a possible expression begins with holds no surrogate. -/
theorem Net.not_isSurrogate_of_lead? {e : Expr} (h : e.Possible) {codes : List Nat}
    (lead : (ofExpr e).lead? = some codes) : codes.any isSurrogate = false := by
  have clear : (ofExpr e).Clear (ofExpr e).start := by
    refine e.clear_segment h _ 1 (e.segment.size + 1) (fun i place found => ?_) ?_
    · have bound := (List.getElem?_eq_some_iff.1 found).1
      simp [Net.place, ofExpr, Nat.add_comm 1 i, List.getElem?_append_left bound, found]
    · refine clear_accept ?_
      have sized := e.sized_segment 1 (e.segment.size + 1)
      rw [Net.place, ofExpr]
      simp [sized]
  unfold lead? at lead
  split at lead
  · rename_i next start
    cases lead
    exact clear.2 next start _ _
  · cases lead

/-- A pattern that can match is found by its program. -/
theorem Piece.lead_none {source : Bytes} {piece : Piece} (parsed : Piece.parse source = .ok piece)
    (h : piece.expr.Possible) : Lead.ofShape? piece.shape = none :=
  Lead.ofShape?_of_lead? fun _ lead =>
    Net.not_isSurrogate_of_lead? (Shape.possible_toExpr (Piece.possible_shape parsed h)) lead

end Pattern

end Rulebook

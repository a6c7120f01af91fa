import Rulebook.Proofs.Pattern.Nesting
import Rulebook.Proofs.Pattern.Reading

/-!
# Numbers of groups

The groups of a pattern are numbered in the order in which they open, from one on: the number of a
group is its place in the list of names.
-/

namespace Rulebook

namespace Pattern

namespace Expr

/-- The groups with their numbers and names, in the order in which they open. -/
def slots : Expr → List (Nat × Bytes)
  | empty => []
  | one _ => []
  | test _ => []
  | group index name e => (index, name) :: e.slots
  | cat a b => a.slots ++ b.slots
  | alt a b => a.slots ++ b.slots
  | star _ e => e.slots
  | plus _ e => e.slots
  | opt _ e => e.slots
  | times _ _ _ e => e.slots

theorem map_snd_slots (e : Expr) : e.slots.map Prod.snd = e.names := by
  induction e with
  | empty | one | test => rfl
  | group _ _ _ ih => simp [slots, names, ih]
  | cat _ _ ih ih' => simp [slots, names, ih, ih']
  | alt _ _ ih ih' => simp [slots, names, ih, ih']
  | star _ _ ih => exact ih
  | plus _ _ ih => exact ih
  | opt _ _ ih => exact ih
  | times _ _ _ _ ih => exact ih

theorem slots_concat (es : List Expr) : (concat es).slots = es.flatMap slots := by
  fun_induction concat es with
  | case1 => rfl
  | case2 e => simp
  | case3 e rest several ih => simp [slots, ih]

theorem slots_choice (es : List Expr) : (choice es).slots = es.flatMap slots := by
  fun_induction choice es with
  | case1 => rfl
  | case2 e => simp
  | case3 e rest several ih => simp [slots, ih]

theorem slots_repeated (count : Count) (greedy : Bool) (e : Expr) :
    (repeated count greedy e).slots = e.slots := by
  cases count <;> rfl

end Expr

namespace Frame

/-- The groups in a frame, in order, without its own. -/
def inner (f : Frame) : List (Nat × Bytes) :=
  f.finished.reverse.flatMap Expr.slots ++ f.exprs.reverse.flatMap Expr.slots

/-- The groups in a frame, in order, its own first. -/
def slots (f : Frame) : List (Nat × Bytes) := f.group.toList ++ f.inner

/-- What a frame holds beside its outline and its settings. -/
def core (f : Frame) : Option (Nat × Bytes) × List Expr × List Expr :=
  (f.group, f.finished, f.exprs)

theorem slots_eq_of_core {f g : Frame} (h : f.core = g.core) : f.slots = g.slots := by
  simp only [core, Prod.mk.injEq] at h
  simp [slots, inner, h]

end Frame

namespace Reading

variable {source : Bytes} {reading next : Reading}

/-- All groups that have been opened, in order. -/
def slots (reading : Reading) : List (Nat × Bytes) :=
  reading.outer.reverse.flatMap Frame.slots ++ reading.top.slots

/-- True if two readings have read the same groups and expressions. -/
structure SameCore (a b : Reading) : Prop where
  groups : a.groups = b.groups
  top : a.top.core = b.top.core
  outer : a.outer.map Frame.core = b.outer.map Frame.core

theorem SameCore.refl (a : Reading) : SameCore a a := ⟨rfl, rfl, rfl⟩

theorem SameCore.trans {a b c : Reading} (h : SameCore a b) (h' : SameCore b c) : SameCore a c :=
  ⟨h.groups.trans h'.groups, h.top.trans h'.top, h.outer.trans h'.outer⟩

theorem flatMap_slots_of_core {fs gs : List Frame} (h : fs.map Frame.core = gs.map Frame.core) :
    fs.flatMap Frame.slots = gs.flatMap Frame.slots := by
  induction fs generalizing gs with
  | nil =>
    cases gs with
    | nil => rfl
    | cons => cases h
  | cons f fs ih =>
    cases gs with
    | nil => cases h
    | cons g gs =>
      simp only [List.map_cons, List.cons.injEq] at h
      simp [Frame.slots_eq_of_core h.1, ih h.2]

theorem SameCore.slots {a b : Reading} (h : SameCore a b) : a.slots = b.slots := by
  have outer : a.outer.reverse.map Frame.core = b.outer.reverse.map Frame.core := by
    simp [List.map_reverse, h.outer]
  rw [Reading.slots, Reading.slots, flatMap_slots_of_core outer, Frame.slots_eq_of_core h.top]

theorem SameCore.inner {a b : Reading} (h : SameCore a b) : a.top.inner = b.top.inner := by
  have := h.top
  simp only [Frame.core, Prod.mk.injEq] at this
  simp [Frame.inner, this]

@[simp] theorem top_meter {α : Type} (action : Metered α) (reading : Reading) :
    (reading.meter action).2.top = reading.top := rfl

@[simp] theorem outer_meter {α : Type} (action : Metered α) (reading : Reading) :
    (reading.meter action).2.outer = reading.outer := rfl

@[simp] theorem core_sketch (action : Outline → Metered Outline) (reading : Reading) :
    (reading.sketch action).top.core = reading.top.core := rfl

@[simp] theorem outer_sketch (action : Outline → Metered Outline) (reading : Reading) :
    (reading.sketch action).outer = reading.outer := rfl

theorem sameCore_sketch (action : Outline → Metered Outline) (reading : Reading) :
    SameCore (reading.sketch action) reading := ⟨rfl, rfl, rfl⟩

theorem sameCore_startWeighing (reading : Reading) : SameCore reading.startWeighing reading := by
  refine ⟨rfl, rfl, ?_⟩
  simp only [startWeighing, List.map_map]
  rfl

theorem sameCore_measure {shape : Shape} (h : measure source shape reading = .ok next) :
    SameCore next reading := by
  have counted : SameCore (reading.meter (Usage.count shape)).2 reading := ⟨rfl, rfl, rfl⟩
  unfold measure at h
  simp only at h
  generalize weighed_eq : (if (reading.meter (Usage.count shape)).2.usage.mustWeigh = true then
    (reading.meter (Usage.count shape)).2.startWeighing
    else (reading.meter (Usage.count shape)).2) = weighed at h
  have core : SameCore weighed reading := by
    rw [← weighed_eq]
    split
    · exact (sameCore_startWeighing _).trans counted
    · exact counted
  split at h
  · cases h
  · split at h
    · cases h
    · split at h
      · cases h
      · split at h
        · cases h
        · cases h
          exact core

theorem slots_push {expr : Expr} {shape : Shape} (h : reading.push source expr shape = .ok next) :
    next.slots = reading.slots ++ expr.slots ∧ next.groups = reading.groups := by
  have pushed (r : Reading) (core : SameCore next { r with
      top := { r.top with exprs := expr :: r.top.exprs }, last := [] })
      (same : SameCore r reading) :
      next.slots = reading.slots ++ expr.slots ∧ next.groups = reading.groups := by
    refine ⟨?_, core.groups.trans same.groups⟩
    rw [core.slots, ← same.slots]
    simp [slots, Frame.slots, Frame.inner]
  unfold push at h
  simp only at h
  split at h
  · cases h
    exact pushed _ (.refl _) (sameCore_sketch _ _)
  · exact pushed _ (sameCore_measure h) (sameCore_sketch _ _)

theorem slots_add {expr : Expr} {shape : Shape} (h : reading.add source expr shape = .ok next) :
    next.slots = reading.slots ++ expr.slots ∧ next.groups = reading.groups := by
  have taken : SameCore (reading.meter Usage.take).2 reading := ⟨rfl, rfl, rfl⟩
  obtain ⟨slots, groups⟩ := slots_push h
  exact ⟨by rw [slots, taken.slots], groups⟩

theorem slots_endAlternative (h : reading.endAlternative source = .ok next) :
    next.slots = reading.slots ∧ next.top.inner = reading.top.inner ∧ next.top.exprs = [] ∧
      next.groups = reading.groups ∧ next.outer.map Frame.core = reading.outer.map Frame.core ∧
      next.top.group = reading.top.group := by
  unfold endAlternative at h
  split at h
  · cases h
  · rename_i whole measured
    cases h
    have core : SameCore whole reading :=
      (sameCore_measure measured).trans (sameCore_sketch _ _)
    have inner := core.inner
    have group : whole.top.group = reading.top.group := congrArg Prod.fst core.top
    have outer : whole.outer.reverse.map Frame.core = reading.outer.reverse.map Frame.core := by
      simp [List.map_reverse, core.outer]
    have moved : (Frame.inner { (whole.sketch Outline.next).top with
        finished := .concat (whole.sketch Outline.next).top.exprs.reverse ::
          (whole.sketch Outline.next).top.finished
        exprs := [] }) = whole.top.inner := by
      have parts := core_sketch Outline.next whole
      simp only [Frame.core, Prod.mk.injEq] at parts
      simp [Frame.inner, Expr.slots_concat, parts]
    refine ⟨?_, moved.trans inner, rfl, core.groups, core.outer, group⟩
    rw [slots, slots, ← flatMap_slots_of_core outer, Frame.slots, Frame.slots, ← inner, ← moved,
      ← group]
    rfl

theorem slots_finish {piece : Piece} (h : reading.finish source = .ok (piece, next)) :
    piece.expr.slots = reading.top.inner ∧ next.groups = reading.groups ∧
      next.outer.map Frame.core = reading.outer.map Frame.core ∧
      next.top.group = reading.top.group := by
  unfold finish at h
  split at h
  · cases h
  · rename_i ended end_eq
    obtain ⟨-, inner, exprs, groups, outer, group⟩ := slots_endAlternative end_eq
    split at h
    · cases h
    · rename_i measured
      cases h
      have core : SameCore next ended :=
        (sameCore_measure measured).trans (sameCore_sketch _ _)
      have parts := core.top
      simp only [Frame.core, Prod.mk.injEq] at parts
      refine ⟨?_, core.groups.trans groups, core.outer.trans outer, parts.1.trans group⟩
      rw [Expr.slots_choice, ← inner, Frame.inner, exprs, parts.2.1]
      simp

theorem slots_enter {group : Option (Nat × Bytes)} {groups : Nat} {flags : Flags}
    (h : reading.enter source group groups flags = .ok next) :
    next.slots = reading.slots ++ group.toList ∧ next.groups = groups := by
  have core := sameCore_measure h
  refine ⟨?_, core.groups⟩
  have top : (sketch Outline.settle (reading.meter Usage.take).2).top.slots =
      reading.top.slots := Frame.slots_eq_of_core rfl
  rw [core.slots]
  simp only [slots, List.reverse_cons, List.flatMap_append, List.flatMap_cons, List.flatMap_nil,
    List.append_nil, outer_sketch, outer_meter, top]
  simp [Frame.slots, Frame.inner]

theorem slots_leave (h : reading.leave source = .ok next) :
    next.slots = reading.slots ∧ next.groups = reading.groups := by
  unfold leave at h
  split at h
  · cases h
  · rename_i body after finished
    obtain ⟨inner, groups, outer, group⟩ := slots_finish finished
    split at h
    · cases h
    · rename_i frame frames around
      rw [around] at outer
      have all : reading.outer.reverse.flatMap Frame.slots =
          frames.reverse.flatMap Frame.slots ++ frame.slots := by
        have : reading.outer.reverse.map Frame.core = (frame :: frames).reverse.map Frame.core := by
          simp only [List.map_reverse, outer]
        rw [flatMap_slots_of_core this]
        simp
      split at h
      · rename_i anonymous
        obtain ⟨slots, groups'⟩ := slots_push h
        refine ⟨?_, groups'.trans groups⟩
        have top : reading.top.slots = reading.top.inner := by
          rw [Frame.slots, ← group, anonymous]
          rfl
        rw [slots, Reading.slots, Reading.slots, all, top, inner]
      · rename_i index name named
        obtain ⟨slots, groups'⟩ := slots_push h
        refine ⟨?_, groups'.trans groups⟩
        have top : reading.top.slots = (index, name) :: reading.top.inner := by
          rw [Frame.slots, ← group, named]
          rfl
        rw [slots, Reading.slots, Reading.slots, all, top, Expr.slots, inner]

theorem slots_bar (h : reading.bar source = .ok next) :
    next.slots = reading.slots ∧ next.groups = reading.groups := by
  unfold bar at h
  split at h
  · cases h
  · rename_i ended end_eq
    obtain ⟨slots, -, -, groups, -, -⟩ := slots_endAlternative end_eq
    have core : SameCore next ended := by
      split at h
      · exact (sameCore_measure h).trans ⟨rfl, rfl, rfl⟩
      · cases h
        exact .refl _
    exact ⟨core.slots.trans slots, core.groups.trans groups⟩

theorem slots_repeatLast {count : Count} {marked : Bool} {text : Bytes}
    (h : reading.repeatLast source count marked text = .ok next) :
    next.slots = reading.slots ∧ next.groups = reading.groups := by
  unfold repeatLast at h
  split at h
  · cases h
  · split at h
    · rename_i body before part others exprs parts
      dsimp only at h
      split at h
      · cases h
      · rename_i measured
        split at h
        · cases h
          have core := sameCore_measure measured
          refine ⟨?_, core.groups⟩
          rw [core.slots]
          simp [slots, Frame.slots, Frame.inner, Expr.slots_repeated, exprs]
        · cases h
    · cases h

/-- Each token adds the group it opens. -/
theorem slots_step {token : Token} (h : reading.step source token = .ok next) :
    next.slots = reading.slots ++
        (Token.names [token]).map (fun name => (reading.groups + 1, name)) ∧
      next.groups = reading.groups + (Token.names [token]).length := by
  have same (h : next.slots = reading.slots ∧ next.groups = reading.groups) :
      next.slots = reading.slots ++ [] ∧ next.groups = reading.groups + 0 :=
    ⟨by rw [h.1, List.append_nil], h.2⟩
  have plain {expr : Expr} {shape : Shape} (none : expr.slots = [])
      (h : reading.add source expr shape = .ok next) :
      next.slots = reading.slots ++ [] ∧ next.groups = reading.groups + 0 := by
    obtain ⟨slots, groups⟩ := slots_add h
    exact ⟨by rw [slots, none], groups⟩
  have tested (condition : Assertion) (h : reading.test source condition = .ok next) :
      next.slots = reading.slots ++ [] ∧ next.groups = reading.groups + 0 :=
    @plain (.test condition) (.test condition) rfl h
  cases token with
  | capture name => exact slots_enter h
  | enclose changes => exact slots_enter h
  | close => exact same (slots_leave h)
  | bar => exact same (slots_bar h)
  | repeated count marked text => exact same (slots_repeatLast h)
  | change changes =>
    cases h
    exact ⟨by simp [slots, Token.names], rfl⟩
  | char code => exact plain rfl h
  | set items negated => exact plain rfl h
  | dot => exact plain rfl h
  | caret => exact tested _ h
  | dollar => exact tested _ h
  | test condition => exact tested _ h

/-- The groups are numbered in the order in which they open. -/
theorem run_numbered {tokens : List (Except Fault Token)}
    (h : reading.run source tokens = .ok next)
    (numbered : reading.slots.map Prod.fst = List.range' 1 reading.groups) :
    next.slots.map Prod.fst = List.range' 1 next.groups := by
  induction tokens generalizing reading with
  | nil =>
    cases h
    exact numbered
  | cons token rest ih =>
    cases token with
    | error fault => cases h
    | ok token =>
      simp only [run] at h
      split at h
      · cases h
      · rename_i after step
        obtain ⟨slots, groups⟩ := slots_step step
        refine ih h ?_
        rw [slots, groups, List.map_append, numbered]
        cases token <;> simp [Token.names, List.range'_concat, Nat.add_comm]

end Reading

/-- A group of a pattern that was read has the number of its place among the names. -/
theorem Piece.slots_parse {source : Bytes} {piece : Piece} (h : Piece.parse source = .ok piece) :
    piece.expr.slots.map Prod.fst = List.range' 1 piece.expr.names.length := by
  obtain ⟨tokens, scanned⟩ := Piece.scan_of_parse h
  have anonymous {reading : Reading}
      (run : Reading.run source .start (Token.scan source.scalars) = .ok reading)
      (outer : reading.outer = []) : reading.top.group = none := by
    have follows : Follows source _ _ _ := Reading.start_drawn.run tokens
    rw [scanned] at run
    rw [run] at follows
    obtain ⟨s, sketched, drawn⟩ := follows.sound
    have none_around : s.outer = [] := by
      have settled := drawn.outer
      rw [outer] at settled
      exact List.forall₂_nil_left_iff.1 settled
    have base := Sketch.base_run sketched
    have name : s.top.name = none := by simpa [Sketch.base, none_around, Sketch.start] using base
    simpa [name] using drawn.top.name
  unfold Piece.parse at h
  split at h
  · cases h
  · rename_i reading run
    split at h
    · cases h
    · rename_i next finish
      split at h
      · rename_i none
        cases h
        have outer := List.isEmpty_iff.1 none
        have numbered := Reading.run_numbered run rfl
        obtain ⟨slots, -⟩ := Reading.slots_finish finish
        have whole : reading.slots = reading.top.inner := by
          simp [Reading.slots, outer, Frame.slots, anonymous run outer]
        have length : piece.expr.names.length = reading.groups := by
          rw [← Expr.map_snd_slots, List.length_map, slots, ← whole, ← List.length_map Prod.fst,
            numbered, List.length_range']
        rw [slots, ← whole, numbered, length]
      · cases h

end Pattern

end Rulebook

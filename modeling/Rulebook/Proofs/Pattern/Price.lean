import Rulebook.Proofs.Pattern.Reading

/-!
# What it costs to read a pattern

A pattern without counts is refused for its size only if it lists too many code points or makes so
many nodes that steps are counted. `Sketch.bill` bounds both for the tokens of a pattern. Nodes that
are set aside on the way are not taken into account, so that a bill is the sum of the bills of its
parts, wherever they stand.
-/

namespace Rulebook

namespace Pattern

open Shape Metered

/-- How many nodes are made and how many code points are listed, at most. -/
@[ext] structure Price where
  made : Nat := 0
  listed : Nat := 0
  deriving DecidableEq, Repr

namespace Price

instance : Add Price := ⟨fun p q => ⟨p.made + q.made, p.listed + q.listed⟩⟩

@[simp] theorem made_add (p q : Price) : (p + q).made = p.made + q.made := rfl

@[simp] theorem listed_add (p q : Price) : (p + q).listed = p.listed + q.listed := rfl

theorem add_assoc (p q r : Price) : p + q + r = p + (q + r) := by
  ext
  · exact Nat.add_assoc ..
  · exact Nat.add_assoc ..

/-- True of what can be used up without meeting a limit. -/
structure Fits (p : Price) : Prop where
  made : p.made < maxWeight
  listed : p.listed ≤ maxListed

theorem Fits.left {p q : Price} (h : (p + q).Fits) : p.Fits := by
  have := h.made
  have := h.listed
  exact ⟨by simp_all; omega, by simp_all; omega⟩

end Price

/-- No steps are counted, nothing is multiplied, and no more has been used up than a price says. -/
structure Usage.Light (p : Price) (u : Usage) : Prop where
  unweighed : u.weighing = false
  counts : u.counts = 1
  made : u.made ≤ p.made
  listed : u.listed ≤ p.listed

namespace Usage.Light

variable {p : Price} {u : Usage}

theorem mono (h : u.Light p) {q : Price} (made : p.made ≤ q.made) (listed : p.listed ≤ q.listed) :
    u.Light q :=
  ⟨h.unweighed, h.counts, Nat.le_trans h.made made, Nat.le_trans h.listed listed⟩

theorem take (h : u.Light p) : (Usage.take.run u).2.Light (p + ⟨1, 0⟩) := by
  rw [take_run]
  have := h.made
  refine ⟨h.unweighed, h.counts, ?_, h.listed⟩
  simp only [Price.made_add]
  split <;> omega

theorem drop (h : u.Light p) (shape : Shape) : ((Usage.drop shape).run u).2.Light p :=
  ⟨h.unweighed, h.counts, h.made, h.listed⟩

theorem list (h : u.Light p) (n : Nat) : ((Usage.list n).run u).2.Light (p + ⟨0, n⟩) :=
  ⟨h.unweighed, h.counts, h.made, Nat.add_le_add_right h.listed n⟩

/-- A computation that agrees with one that starts afresh uses up no more beside what has been used
    up already. -/
theorem agree {α β : Type} {R : α → β → Prop} {f : Metered α} {g : Metered β} (h : u.Light p)
    (same : Agree R f g) (counts : (g.run {}).2.counts = 1) :
    (f.run u).2.Light (p + ⟨(g.run {}).2.made, (g.run {}).2.listed⟩) := by
  have beside : u.Beside u.made u.listed {} :=
    ⟨⟨h.unweighed, rfl⟩, h.counts, by simp, by simp, by simp⟩
  obtain ⟨unweighed, counts', made, listed, -⟩ := (same u {}).2 _ _ beside
  have := h.made
  have := h.listed
  refine ⟨unweighed.1, counts'.trans counts, ?_, ?_⟩
  · simp only [Price.made_add]
    omega
  · simp only [Price.listed_add]
    omega

end Usage.Light

/-- True of a repetition with counts. -/
def Shape.isCounted (s : Shape) : Bool := (Usage.factor? s).isSome

theorem Shape.Like.isCounted {s t : Shape} (h : Like s t) : s.isCounted = t.isCounted := by
  rw [Shape.isCounted, ← factor?_bare s, h, factor?_bare]
  rfl

theorem Shape.Like.listed {s t : Shape} (h : Like s t) : s.listed = t.listed := by
  rw [← listed_bare s, h, listed_bare]

/-! ### Outlines -/

namespace Outline

variable {p : Price} {u : Usage}

theorem settle_light (o : Outline) (h : u.Light p) : ((settle o).run u).2.Light p := by
  unfold settle
  split
  · exact h.drop _
  · exact h

theorem push_light (flags : Flags) (shape : Shape) (o : Outline) (h : u.Light p) :
    ((push flags shape o).run u).2.Light (p + ⟨0, shape.listed⟩) := by
  unfold push
  split
  · exact h.list _
  · split
    · exact (h.list _).drop _
    · exact h.list _

theorem flatten_light (parts : List Shape) (h : u.Light p) : ((flatten parts).run u).2.Light p := by
  induction parts generalizing u with
  | nil => exact h
  | cons part parts ih =>
    cases part with
    | cat inner noted => exact ih (h.drop _)
    | _ => exact ih h

theorem sequence_light {o : Outline} {parts : List Shape}
    (like : AllLike (joinStrings o.parts.reverse) (joinStrings parts.reverse)) (h : u.Light p) :
    ((sequence o).run u).2.Light (p + ⟨1, (Shape.sequence parts.reverse).listed⟩) := by
  obtain ⟨v, settled⟩ := settle_run o u
  have light : v.Light p := by
    have := settle_light o h
    rwa [settled] at this
  unfold sequence Shape.sequence
  simp only [StateT.run_bind, settled]
  dsimp only [bind]
  generalize joinStrings o.parts.reverse = ps at like
  generalize joinStrings parts.reverse = qs at like
  cases like with
  | nil => exact light.take
  | cons first rest =>
    cases rest with
    | nil =>
      refine (light.list _).mono (Nat.le_succ _) ?_
      rw [first.listed]
      exact Nat.le_refl _
    | cons second rest => exact flatten_light _ light.take

theorem next_light (o : Outline) (h : u.Light p) : ((next o).run u).2.Light p := by
  unfold next
  split
  · exact h
  · split
    · exact h.drop _
    · exact h

end Outline

/-! ### Prices -/

namespace Sketch

/-- The price of a part that is added, unless it is a repetition with counts. -/
def partPrice (shape : Shape) : Option Price :=
  if shape.isCounted then none else some ⟨0, shape.listed⟩

/-- The price of a group as a part of what is around it. -/
def groupPrice (name : Option Bytes) (shape : Shape) : Option Price :=
  match name with
  | some _ => some ⟨0, 0⟩
  | none => partPrice shape

/-- The price of putting the parts of an alternative together. -/
def endPrice (s : Sketch) : Option Price :=
  if s.body.isCounted then none else some ⟨1, s.body.listed⟩

/-- The price of putting alternatives together. -/
def choicePrice (flags : Flags) (choices : List Shape) : Option Price :=
  let parts := (choices.map clean).reverse
  let chosen := (choose (total (eachWeighed parts) + 1) parts).run {}
  if chosen.2.counts = 1 ∧ (chosen.1.asString flags).isCounted = false then
    some (⟨chosen.2.made, chosen.2.listed⟩ + ⟨0, chosen.1.listed⟩)
  else none

/-- The price of putting all that stands in a group together. -/
def finishPrice (s : Sketch) : Option Price := do
  let ended ← s.endPrice
  let next ← s.endAlternative
  let chosen ← choicePrice next.flags next.top.choices
  pure (ended + chosen)

/-- The price of reading a token. -/
def price (s : Sketch) : Token → Option Price
  | .char code => some (⟨1, 0⟩ + ⟨0, (Shape.ofChar s.flags code).listed⟩)
  | .set items negated =>
      some (⟨1, 0⟩ + ⟨0, (Shape.set (Expr.classSet s.flags.fold items negated)).listed⟩)
  | .dot => some (⟨1, 0⟩ + ⟨0, (Shape.ofDot s.flags).listed⟩)
  | .caret => some ⟨1, 0⟩
  | .dollar => some ⟨1, 0⟩
  | .test _ => some ⟨1, 0⟩
  | .capture _ => some ⟨1, 0⟩
  | .enclose _ => some ⟨1, 0⟩
  | .change _ => some ⟨0, 0⟩
  | .close => do
      let finished ← s.finishPrice
      let parts ← s.finish
      let pushed ← groupPrice s.top.name parts.2
      pure (finished + pushed)
  | .bar => s.endPrice.map (· + ⟨1, 0⟩)
  | .repeated count _ _ =>
      match count with
      | .times _ _ => none
      | _ => some ⟨1, 0⟩

/-- The price of reading tokens one after another. -/
def bill (s : Sketch) : List Token → Option Price
  | [] => some ⟨0, 0⟩
  | token :: rest => do
      let first ← s.price token
      let next ← s.step token
      let others ← next.bill rest
      pure (first + others)

end Sketch

/-! ### Readings -/

namespace Reading

variable {source : Bytes} {reading : Reading} {s : Sketch} {p q : Price}

/-- True of what a reading comes to if it is not refused for its size and uses up no more than a
    price says. -/
structure Spends {α : Type} (source : Bytes) (p : Price) (usage : α → Usage)
    (x : Except Fault α) : Prop where
  small : x ≠ .error ⟨.tooLarge, source⟩
  light : ∀ a, x = .ok a → (usage a).Light p

theorem measure_light {shape : Shape} (light : reading.usage.Light p) (fits : p.Fits)
    (plain : shape.isCounted = false) :
    measure source shape reading =
      if maxHeight < shape.height then .error ⟨.nestingDepth, source⟩ else .ok reading := by
  have factor : Usage.factor? shape = none := by
    simpa [Shape.isCounted] using plain
  have counted : (reading.meter (Usage.count shape)).2 = reading := by
    have same : (reading.meter (Usage.count shape)).2 =
        { reading with usage := ((Usage.count shape).run reading.usage).2 } := rfl
    rw [same, count_run, factor]
  have must : reading.usage.mustWeigh = false := by
    have := fits.made
    have := light.made
    simp [Usage.mustWeigh, light.unweighed, light.counts]
    omega
  have listed : ¬ maxListed < reading.usage.listed := by
    have := fits.listed
    have := light.listed
    omega
  unfold measure
  simp only [counted, must, Bool.false_eq_true, if_false, if_neg listed, Bool.false_and,
    light.unweighed]

theorem measure_spends {shape : Shape} (light : reading.usage.Light p) (fits : p.Fits)
    (plain : shape.isCounted = false) :
    Spends source p Reading.usage (measure source shape reading) := by
  rw [measure_light light fits plain]
  split
  · exact ⟨by simp, by simp⟩
  · refine ⟨by simp, ?_⟩
    rintro a ⟨⟩
    exact light

theorem sketch_usage (action : Outline → Metered Outline) (reading : Reading) :
    (reading.sketch action).usage = ((action reading.top.outline).run reading.usage).2 :=
  rfl

theorem push_spends {expr : Expr} (shape : Shape) (light : reading.usage.Light p)
    (fits : (p + ⟨0, shape.listed⟩).Fits) (plain : shape.isCounted = false) :
    Spends source (p + ⟨0, shape.listed⟩) Reading.usage (reading.push source expr shape) := by
  have pushed := Outline.push_light reading.flags shape reading.top.outline light
  unfold push
  simp only
  split
  · refine ⟨by simp, ?_⟩
    rintro a ⟨⟩
    exact pushed
  · exact measure_spends pushed fits plain

theorem add_spends {expr : Expr} (shape : Shape) (light : reading.usage.Light p)
    (fits : (p + (⟨1, 0⟩ + ⟨0, shape.listed⟩)).Fits) (plain : shape.isCounted = false) :
    Spends source (p + (⟨1, 0⟩ + ⟨0, shape.listed⟩)) Reading.usage
      (reading.add source expr shape) := by
  have taken : (reading.meter Usage.take).2.usage.Light (p + ⟨1, 0⟩) := light.take
  rw [← Price.add_assoc] at fits ⊢
  exact push_spends shape taken fits plain

theorem measureBody_spends {shape : Shape} (h : reading.Drawn (Frame.Whole shape) s)
    (light : reading.usage.Light p) (fits : p.Fits) (plain : shape.isCounted = false) :
    Spends source p Reading.usage (reading.measureBody source) := by
  obtain ⟨part, parts, like⟩ := h.top.parts
  refine measure_spends light fits ?_
  rw [show reading.top.outline.body = part by simp [Outline.body, parts], like.isCounted, plain]

theorem endAlternative_spends (h : reading.Drawn Frame.Open s) (light : reading.usage.Light p)
    (price : s.endPrice = some q) (fits : (p + q).Fits) :
    Spends source (p + q) Reading.usage (reading.endAlternative source) := by
  unfold Sketch.endPrice at price
  split at price
  · cases price
  · rename_i plain
    cases price
    have ended := Outline.sequence_light h.top.toJoined.parts light
    have measured : Spends source _ _ _ :=
      measureBody_spends h.sequence ended fits (by simpa using plain)
    unfold Reading.endAlternative
    generalize measureBody source _ = x at measured
    cases x with
    | error fault => exact ⟨measured.small, by simp⟩
    | ok whole =>
      refine ⟨by simp, ?_⟩
      rintro a ⟨⟩
      exact Outline.next_light whole.top.outline (measured.light whole rfl)

theorem choice_light (h : reading.Drawn Frame.Open s) (light : reading.usage.Light p)
    (price : Sketch.choicePrice s.flags s.top.choices = some q) :
    (reading.sketch (Outline.choice reading.flags)).usage.Light (p + q) ∧
      (Shape.select s.flags s.top.choices).isCounted = false := by
  unfold Sketch.choicePrice at price
  simp only at price
  split at price
  · rename_i checked
    cases price
    have parts : AllLike (reading.top.outline.choices.map clean).reverse
        (s.top.choices.map clean).reverse :=
      AllLike.reverse (List.forall₂_map_left_iff.2 (List.forall₂_map_right_iff.2
        (h.top.choices.imp fun _ _ like => like.clean)))
    have fuel : total (eachWeighed (reading.top.outline.choices.map clean).reverse) =
        total (eachWeighed (s.top.choices.map clean).reverse) := by
      rw [← total_eachWeighed_bares, allLike_iff.1 parts, total_eachWeighed_bares]
    refine ⟨?_, checked.2⟩
    have agree := choose_agree (total (eachWeighed (s.top.choices.map clean).reverse) + 1) parts
    have chosen := light.agree agree checked.1
    have listed := ((agree reading.usage {}).1).listed
    rw [sketch_usage, Outline.choice, fuel, ← Price.add_assoc, ← listed]
    exact chosen.list _
  · cases price

theorem finish_spends (h : reading.Drawn Frame.Open s) (light : reading.usage.Light p)
    (price : s.finishPrice = some q) (fits : (p + q).Fits) :
    Spends source (p + q) (fun result => result.2.usage) (reading.finish source) := by
  simp only [Sketch.finishPrice, Option.bind_eq_bind, Option.bind_eq_some_iff, Option.pure_def,
    Option.some.injEq] at price
  obtain ⟨ended, endPrice, next, endAlternative, chosen, choicePrice, rfl⟩ := price
  rw [← Price.add_assoc] at fits ⊢
  have spends : Spends source _ _ _ := endAlternative_spends h light endPrice fits.left
  have follows : Follows source _ _ _ := h.endAlternative
  rw [endAlternative] at follows
  unfold Reading.finish
  generalize Reading.endAlternative source reading = x at spends follows
  cases follows with
  | tooLarge => exact absurd rfl spends.small
  | @ok after _ drawn =>
    obtain ⟨light, plain⟩ := choice_light drawn (spends.light after rfl) choicePrice
    have measured : Spends source _ _ _ := measureBody_spends drawn.choice light fits plain
    simp only
    generalize measureBody source _ = x at measured
    cases x with
    | error fault => exact ⟨by simpa using measured.small, by simp⟩
    | ok last =>
      refine ⟨by simp, ?_⟩
      rintro a ⟨⟩
      exact measured.light last rfl

theorem enter_spends {group : Option (Nat × Bytes)} {groups : Nat} {flags : Flags}
    (light : reading.usage.Light p) (fits : (p + ⟨1, 0⟩).Fits) :
    Spends source (p + ⟨1, 0⟩) Reading.usage (reading.enter source group groups flags) :=
  measure_spends (Outline.settle_light _ light.take) fits rfl

theorem bar_spends (h : reading.Drawn Frame.Open s) (light : reading.usage.Light p)
    (price : s.endPrice = some q) (fits : (p + (q + ⟨1, 0⟩)).Fits) :
    Spends source (p + (q + ⟨1, 0⟩)) Reading.usage (reading.bar source) := by
  rw [← Price.add_assoc] at fits ⊢
  have spends : Spends source _ _ _ := endAlternative_spends h light price fits.left
  unfold Reading.bar
  generalize Reading.endAlternative source reading = x at spends
  cases x with
  | error fault => exact ⟨by simpa using spends.small, by simp⟩
  | ok next =>
    have light := spends.light next rfl
    simp only
    split
    · exact measure_spends light.take fits rfl
    · refine ⟨by simp, ?_⟩
      rintro a ⟨⟩
      exact light.mono (Nat.le_succ _) (Nat.le_refl _)

theorem leave_spends (h : reading.Drawn Frame.Open s) (light : reading.usage.Light p)
    (price : s.price .close = some q) (fits : (p + q).Fits) :
    Spends source (p + q) Reading.usage (reading.leave source) := by
  simp only [Sketch.price, Option.bind_eq_bind, Option.bind_eq_some_iff, Option.pure_def,
    Option.some.injEq] at price
  obtain ⟨finished, finishPrice, ⟨expr, shape⟩, finish, pushed, partPrice, rfl⟩ := price
  rw [← Price.add_assoc] at fits ⊢
  have spends : Spends source _ _ _ := finish_spends h light finishPrice fits.left
  have follows : Follows source _ _ _ := h.finish
  rw [finish] at follows
  unfold Reading.leave
  generalize Reading.finish source reading = x at spends follows
  cases follows with
  | tooLarge => exact absurd rfl spends.small
  | @ok result _ done =>
    obtain ⟨body, next⟩ := result
    have light := spends.light _ rfl
    obtain ⟨-, like, name, -, -⟩ := done
    simp only at like name light ⊢
    cases next.outer with
    | nil => exact ⟨by simp, by simp⟩
    | cons frame outer =>
      simp only
      generalize next.top.group = group at name
      rw [← name] at partPrice
      cases group with
      | none =>
        simp only [Option.map_none, Sketch.groupPrice, Sketch.partPrice] at partPrice
        split at partPrice
        · cases partPrice
        · rename_i plain
          cases partPrice
          rw [← like.listed] at fits ⊢
          refine push_spends body.shape light fits ?_
          rw [like.isCounted]
          simpa using plain
      | some group =>
        cases partPrice
        exact push_spends (.captured group.1 body.shape) light fits rfl

theorem Spends.checked {x : Except Fault Reading} (good : Bool) (text : Bytes) :
    Spends source p Reading.usage x → Spends source p Reading.usage
      (match x with
        | .error fault => .error fault
        | .ok next => if good then .ok next else .error ⟨.invalidRepeatSize, text⟩) := by
  intro h
  cases x with
  | error fault => exact ⟨h.small, by simp⟩
  | ok next =>
    simp only
    split
    · exact h
    · exact ⟨by simp, by simp⟩

theorem repeatLast_spends {count : Count} {marked : Bool} {text : Bytes}
    (light : reading.usage.Light p) (price : s.price (.repeated count marked text) = some q)
    (fits : (p + q).Fits) :
    Spends source (p + q) Reading.usage (reading.repeatLast source count marked text) := by
  have once : q = ⟨1, 0⟩ ∧ ∀ greedy part, (Shape.repeated count greedy part).isCounted = false := by
    cases count with
    | times min max => cases price
    | _ =>
      cases price
      exact ⟨rfl, fun _ _ => rfl⟩
  obtain ⟨rfl, plain⟩ := once
  unfold Reading.repeatLast
  split
  · exact ⟨by simp, by simp⟩
  · split
    · refine Spends.checked _ text (measure_spends ?_ fits (plain _ _))
      exact light.take
    · exact ⟨by simp, by simp⟩

/-- One token. -/
theorem step_spends (h : reading.Drawn Frame.Open s) (light : reading.usage.Light p) {token : Token}
    (price : s.price token = some q) (fits : (p + q).Fits) :
    Spends source (p + q) Reading.usage (reading.step source token) := by
  cases token with
  | char code =>
    cases price
    rw [← h.flags] at fits ⊢
    exact add_spends _ light fits rfl
  | set items negated =>
    cases price
    rw [← h.flags] at fits ⊢
    exact add_spends _ light fits rfl
  | dot =>
    cases price
    rw [← h.flags] at fits ⊢
    refine add_spends _ light fits ?_
    unfold Shape.ofDot
    split <;> rfl
  | caret =>
    cases price
    exact add_spends (.test _) light fits rfl
  | dollar =>
    cases price
    exact add_spends (.test _) light fits rfl
  | test condition =>
    cases price
    exact add_spends (.test _) light fits rfl
  | capture name =>
    cases price
    exact enter_spends light fits
  | enclose changes =>
    cases price
    exact enter_spends light fits
  | change changes =>
    cases price
    refine ⟨by simp [Reading.step], ?_⟩
    rintro a ⟨⟩
    exact light
  | close => exact leave_spends h light price fits
  | bar =>
    simp only [Sketch.price, Option.map_eq_some_iff] at price
    obtain ⟨ended, endPrice, rfl⟩ := price
    exact bar_spends h light endPrice fits
  | repeated count marked text => exact repeatLast_spends light price fits

/-- Tokens one after another. -/
theorem run_spends (h : reading.Drawn Frame.Open s) (light : reading.usage.Light p)
    {tokens : List Token} (bill : s.bill tokens = some q) (fits : (p + q).Fits) :
    Spends source (p + q) Reading.usage (reading.run source (tokens.map .ok)) := by
  induction tokens generalizing reading s p q with
  | nil =>
    cases bill
    refine ⟨by simp [Reading.run], ?_⟩
    rintro a ⟨⟩
    exact light
  | cons token rest ih =>
    simp only [Sketch.bill, Option.bind_eq_bind, Option.bind_eq_some_iff, Option.pure_def,
      Option.some.injEq] at bill
    obtain ⟨first, price, next, step, others, bill, rfl⟩ := bill
    rw [← Price.add_assoc] at fits ⊢
    have spends : Spends source _ _ _ := step_spends h light price fits.left
    have follows : Follows source _ _ _ := h.step token
    rw [step] at follows
    simp only [List.map_cons, Reading.run]
    generalize reading.step source token = x at spends follows
    cases follows with
    | tooLarge => exact absurd rfl spends.small
    | ok drawn => exact ih drawn (spends.light _ rfl) bill fits

end Reading

/-- The price of reading a whole pattern. -/
def Sketch.readPrice (tokens : List Token) : Option Price := do
  let read ← start.bill tokens
  let s ← start.run tokens
  let finished ← s.finishPrice
  pure (read + finished)

/-- A pattern without faults whose price is within the limits is read. -/
theorem Piece.parse_ok {source : Bytes} {tokens : List Token} {parts : Expr × Shape} {p : Price}
    (scanned : Token.scan source.scalars = tokens.map .ok) (read : Sketch.read tokens = some parts)
    (price : Sketch.readPrice tokens = some p) (fits : p.Fits) :
    ∃ piece, Piece.parse source = .ok piece ∧ Piece.Drawn piece parts := by
  have follows := Piece.parse_follows scanned
  rw [read] at follows
  refine follows.complete.resolve_right fun large => ?_
  simp only [Sketch.readPrice, Option.bind_eq_bind, Option.bind_eq_some_iff, Option.pure_def,
    Option.some.injEq] at price
  obtain ⟨billed, bill, s, run, finished, finishPrice, rfl⟩ := price
  have start : Reading.start.usage.Light ⟨0, 0⟩ := ⟨rfl, rfl, Nat.le_refl _, Nat.le_refl _⟩
  have zero (p : Price) : ⟨0, 0⟩ + p = p := by
    ext <;> simp
  have spends : Reading.Spends source _ _ _ :=
    Reading.run_spends Reading.start_drawn start bill (by rw [zero]; exact fits.left)
  have follows : Follows source _ _ _ := Reading.start_drawn.run tokens
  rw [zero] at spends
  rw [run] at follows
  unfold Piece.parse at large
  rw [scanned] at large
  generalize Reading.run source .start _ = x at spends follows large
  cases follows with
  | tooLarge => exact spends.small rfl
  | @ok reading _ drawn =>
    have last : Reading.Spends source _ _ _ :=
      Reading.finish_spends drawn (spends.light reading rfl) finishPrice fits
    simp only at large
    generalize reading.finish source = x at last large
    cases x with
    | error fault => exact last.small (by simpa using large)
    | ok result =>
      obtain ⟨piece, next⟩ := result
      simp only at large
      split at large <;> cases large

end Pattern

end Rulebook

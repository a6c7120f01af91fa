import Rulebook.Proofs.Pattern.Sketch

/-!
# A reading follows its sketch

What is read under all limits, with numbers and weights, follows the sketch token by token: it goes
on where the sketch does, unless the limit of size is met, and only there.
-/

namespace Rulebook

namespace Pattern

open Shape Metered

/-! ### Outlines -/

namespace Outline

theorem flatten_like {ps qs : List Shape} (h : AllLike ps qs) (u : Usage) :
    AllLike ((flatten ps).run u).1 (qs.flatMap links) := by
  induction h generalizing u with
  | nil => exact .nil
  | @cons p q ps qs first _ ih =>
    by_cases isCat : p.IsCat
    · obtain ⟨parts, m, rfl⟩ := isCat
      obtain ⟨parts', n, rfl, alike⟩ := first.cat_inv
      exact alike.append (ih _)
    · have plain {p : Shape} (h : ¬ p.IsCat) : p.links = [p] := by
        cases p with
        | cat parts noted => exact absurd ⟨parts, noted, rfl⟩ h
        | _ => rfl
      rw [List.flatMap_cons, plain (first.not_isCat isCat)]
      cases p with
      | cat parts noted => exact absurd ⟨parts, noted, rfl⟩ isCat
      | _ => exact .cons first (ih u)

theorem settle_run (o : Outline) (u : Usage) :
    ∃ v, (settle o).run u = ({ o with joined := true }, v) := by
  unfold settle
  split <;> exact ⟨_, rfl⟩

theorem push_run (flags : Flags) (shape : Shape) (o : Outline) (u : Usage) :
    ∃ part, ((push flags shape o).run u).1 =
      { o with parts := part :: o.parts, joined := false } ∧ Like part (shape.asString flags) := by
  unfold push
  split
  · exact ⟨_, rfl, bare_withNote _ _⟩
  · split <;> exact ⟨_, rfl, weigh_like (shape.asString flags) _⟩

theorem sequence_run {o : Outline} {parts : List Shape}
    (h : AllLike (joinStrings o.parts.reverse) (joinStrings parts.reverse)) (u : Usage) :
    ∃ part, ((sequence o).run u).1 = { o with parts := [part], joined := true } ∧
      Like part (.sequence parts.reverse) := by
  obtain ⟨v, settled⟩ := settle_run o u
  unfold sequence Shape.sequence
  simp only [StateT.run_bind, settled]
  dsimp only [bind]
  generalize joinStrings o.parts.reverse = ps at h
  generalize joinStrings parts.reverse = qs at h
  cases h with
  | nil => exact ⟨_, rfl, Like.refl _⟩
  | cons first rest =>
    cases rest with
    | nil => exact ⟨_, rfl, (weigh_like _ _).trans first⟩
    | cons second rest =>
      exact ⟨_, rfl, like_cat (flatten_like (.cons first (.cons second rest)) _) _ _⟩

theorem next_run {o : Outline} {body body' : Shape} {choices : List Shape} (parts : o.parts = [body])
    (like : Like body body') (h : AllLike o.choices choices) (u : Usage) :
    ∃ cs, ((next o).run u).1 = { choices := cs } ∧ AllLike cs (body'.also choices) := by
  have same : o.body = body := by simp [Outline.body, parts]
  unfold next also
  rw [same]
  generalize o.choices = cs at h
  cases h with
  | nil => exact ⟨_, rfl, .cons like .nil⟩
  | cons first rest =>
    simp only [first.oneOf?, like.oneOf?]
    generalize Shape.oneOf? _ = s
    generalize Shape.oneOf? _ = t
    cases s with
    | none => exact ⟨_, rfl, .cons like (.cons first rest)⟩
    | some s =>
      cases t with
      | none => exact ⟨_, rfl, .cons like (.cons first rest)⟩
      | some t => exact ⟨_, rfl, .cons (first.merge like s t) rest⟩

theorem choice_run (flags : Flags) {o : Outline} {choices : List Shape}
    (h : AllLike o.choices choices) (u : Usage) :
    ∃ part, ((choice flags o).run u).1 = { parts := [part], joined := true } ∧
      Like part (select flags choices) := by
  have parts : AllLike (o.choices.map clean).reverse (choices.map clean).reverse :=
    AllLike.reverse (List.forall₂_map_left_iff.2 (List.forall₂_map_right_iff.2
      (h.imp fun _ _ like => like.clean)))
  have fuel : total (eachWeighed (o.choices.map clean).reverse) =
      total (eachWeighed (choices.map clean).reverse) := by
    rw [← total_eachWeighed_bares, allLike_iff.1 parts, total_eachWeighed_bares]
  refine ⟨_, rfl, (weigh_like _ _).trans ?_⟩
  simp only [bare_asString, select, fuel]
  congr 1
  exact (choose_agree _ parts _ _).1

end Outline

/-! ### Frames -/

/-- The frame with all its shapes weighed for the first time. -/
def Frame.weighed (f : Frame) : Frame := { f with outline := f.outline.allWeighed }

/-- A frame, and the layer with what it says of finished alternatives and of the group. -/
structure Frame.Drawn (f : Frame) (l : Layer) : Prop where
  name : f.group.map Prod.snd = l.name
  flags : f.flags = l.flags
  finished : f.finished.map Expr.unnumbered = l.finished
  exprs : f.exprs.map Expr.unnumbered = l.exprs
  choices : AllLike f.outline.choices l.choices

/-- A frame whose parts are those of the layer once all strings are joined. -/
structure Frame.Joined (f : Frame) (l : Layer) : Prop extends Frame.Drawn f l where
  parts : AllLike (joinStrings f.outline.parts.reverse) (joinStrings l.parts.reverse)

/-- A frame around another. Its strings have been joined. -/
structure Frame.Settled (f : Frame) (l : Layer) : Prop extends Frame.Joined f l where
  joined : f.outline.joined = true

/-- The innermost frame. Its last part can still be repeated, and what is before that may have been
    joined. -/
structure Frame.Open (f : Frame) (l : Layer) : Prop extends Frame.Drawn f l where
  joined : f.outline.joined = false
  last : f.outline.parts.head?.map Shape.bare = l.parts.head?.map Shape.bare
  before :
    AllLike (joinStrings f.outline.parts.tail.reverse) (joinStrings l.parts.tail.reverse)

/-- The innermost frame once its parts have been put together. -/
structure Frame.Whole (shape : Shape) (f : Frame) (l : Layer) : Prop extends Frame.Drawn f l where
  parts : ∃ part, f.outline.parts = [part] ∧ Like part shape

namespace Frame

theorem map_allWeighed_like (parts : List Shape) : AllLike (parts.map allWeighed) parts := by
  refine List.forall₂_map_left_iff.2 (List.forall₂_same.2 fun s _ => ?_)
  simp [Like]

theorem Drawn.weighed {f : Frame} {l : Layer} (h : f.Drawn l) : f.weighed.Drawn l :=
  ⟨h.name, h.flags, h.finished, h.exprs, (map_allWeighed_like _).trans h.choices⟩

theorem parts_weighed_of_joined {o : Outline} (h : o.joined = true) :
    o.allWeighed.parts = (joinStrings o.parts.reverse).reverse.map allWeighed := by
  simp [Outline.allWeighed, h]

theorem joinStrings_joinStrings (parts : List Shape) :
    joinStrings (joinStrings parts) = joinStrings parts := by
  simpa using (joinStrings_append parts []).symm

/-- Weighing joins strings, which changes nothing once they are joined again. -/
theorem joined_weighed_like (parts : List Shape) :
    AllLike (joinStrings ((joinStrings parts.reverse).reverse.map allWeighed).reverse)
      (joinStrings parts.reverse) := by
  have weighed := (map_allWeighed_like (joinStrings parts.reverse)).joinStrings
  rw [joinStrings_joinStrings] at weighed
  simpa using weighed

theorem Settled.weighed {f : Frame} {l : Layer} (h : f.Settled l) : f.weighed.Settled l := by
  refine ⟨⟨h.toDrawn.weighed, ?_⟩, h.joined⟩
  simp only [Frame.weighed, parts_weighed_of_joined h.joined]
  exact (joined_weighed_like _).trans h.parts

theorem Open.weighed {f : Frame} {l : Layer} (h : f.Open l) : f.weighed.Open l := by
  have joined := h.joined
  have last := h.last
  have before := h.before
  cases parts : f.outline.parts with
  | nil =>
    rw [parts] at last before
    refine ⟨h.toDrawn.weighed, joined, ?_, ?_⟩
    all_goals simp only [Frame.weighed, Outline.allWeighed, joined, parts]
    · exact last
    · exact before
  | cons part others =>
    rw [parts] at last before
    refine ⟨h.toDrawn.weighed, joined, ?_, ?_⟩
    all_goals simp only [Frame.weighed, Outline.allWeighed, joined, parts, List.map_cons,
      List.head?_cons, Option.map_some, List.tail_cons]
    · simpa using last
    · exact (joined_weighed_like others).trans before

theorem Whole.weighed {shape : Shape} {f : Frame} {l : Layer} (h : f.Whole shape l) :
    f.weighed.Whole shape l := by
  obtain ⟨part, parts, like⟩ := h.parts
  refine ⟨h.toDrawn.weighed, part.allWeighed, ?_, ?_⟩
  · simp only [Frame.weighed, Outline.allWeighed, parts]
    cases f.outline.joined with
    | false => rfl
    | true => simp
  · simpa [Like] using like

theorem Open.toJoined {f : Frame} {l : Layer} (h : f.Open l) : f.Joined l := by
  refine ⟨h.toDrawn, ?_⟩
  have last := h.last
  have before := h.before
  generalize f.outline.parts = ps at last before
  generalize l.parts = qs at last before
  cases ps with
  | nil =>
    cases qs with
    | nil => exact .nil
    | cons => simp at last
  | cons p ps =>
    cases qs with
    | nil => simp at last
    | cons q qs =>
      simp only [List.head?_cons, Option.map_some, Option.some.injEq, List.tail_cons] at last before
      rw [List.reverse_cons, List.reverse_cons, joinStrings_append, joinStrings_append qs.reverse]
      exact (before.append (.cons last .nil)).joinStrings

end Frame

/-! ### Readings -/

/-- A computation that may meet the limit of size, beside one that cannot. The two have results that
    are related, or both have none, unless the limit is met. -/
inductive Follows {α β : Type} (source : Bytes) (R : α → β → Prop) :
    Except Fault α → Option β → Prop
  | ok {a : α} {b : β} (h : R a b) : Follows source R (.ok a) (some b)
  | error (fault : Fault) : Follows source R (.error fault) none
  | tooLarge (y : Option β) : Follows source R (.error ⟨.tooLarge, source⟩) y

namespace Follows

variable {α β : Type} {source : Bytes} {R : α → β → Prop}

theorem sound {a : α} {y : Option β} (h : Follows source R (.ok a) y) :
    ∃ b, y = some b ∧ R a b := by
  cases h with
  | ok rel => exact ⟨_, rfl, rel⟩

theorem complete {x : Except Fault α} {b : β} (h : Follows source R x (some b)) :
    (∃ a, x = .ok a ∧ R a b) ∨ x = .error ⟨.tooLarge, source⟩ := by
  cases h with
  | ok rel => exact .inl ⟨_, rfl, rel⟩
  | tooLarge => exact .inr rfl

/-- If a shape is not too high, a computation may go on to any result. -/
theorem within {x : Except Fault α} {shape : Shape} {b : β}
    (h : Follows source (fun a _ => R a b) x (Sketch.within shape ())) :
    Follows source R x (Sketch.within shape b) := by
  rw [Sketch.within_eq]
  generalize Sketch.within shape () = y at h
  cases h with
  | ok rel => exact .ok rel
  | error fault => exact .error fault
  | tooLarge y => exact .tooLarge _

end Follows

/-- A reading, and the sketch of it. `T` says what the innermost frame has to do with its layer. -/
structure Reading.Drawn (T : Frame → Layer → Prop) (reading : Reading) (s : Sketch) : Prop where
  flags : reading.flags = s.flags
  last : reading.last = s.last
  top : T reading.top s.top
  outer : List.Forall₂ Frame.Settled reading.outer s.outer

namespace Reading

variable {source : Bytes} {T : Frame → Layer → Prop} {reading : Reading} {s : Sketch}

theorem Drawn.usage (h : reading.Drawn T s) (usage : Usage) :
    Drawn T { reading with usage := usage } s :=
  ⟨h.flags, h.last, h.top, h.outer⟩

theorem Drawn.imp {T' : Frame → Layer → Prop} (weaker : ∀ f l, T f l → T' f l)
    (h : reading.Drawn T s) : reading.Drawn T' s :=
  ⟨h.flags, h.last, weaker _ _ h.top, h.outer⟩

theorem Drawn.startWeighing (closed : ∀ f l, T f l → T f.weighed l) (h : reading.Drawn T s) :
    reading.startWeighing.Drawn T s := by
  refine ⟨h.flags, h.last, closed _ _ h.top, ?_⟩
  exact List.forall₂_map_left_iff.2 (h.outer.imp fun _ _ settled => settled.weighed)

/-- A shape is refused for its height by a reading and its sketch alike. -/
theorem measure_follows (closed : ∀ f l, T f l → T f.weighed l) (h : reading.Drawn T s)
    {shape shape' : Shape} (like : Like shape shape') :
    Follows source (fun next _ => next.Drawn T s) (measure source shape reading)
      (Sketch.within shape' ()) := by
  have height : shape.height = shape'.height := by
    rw [← height_bare shape, like, height_bare]
  have drawn : Drawn T
      (if (reading.meter (Usage.count shape)).2.usage.mustWeigh then
        (reading.meter (Usage.count shape)).2.startWeighing
      else (reading.meter (Usage.count shape)).2) s := by
    split
    · exact Drawn.startWeighing closed (h.usage _)
    · exact h.usage _
  unfold measure Sketch.within
  simp only [height]
  generalize (if (reading.meter (Usage.count shape)).2.usage.mustWeigh then
      (reading.meter (Usage.count shape)).2.startWeighing
    else (reading.meter (Usage.count shape)).2) = next at drawn ⊢
  split
  · exact .tooLarge _
  split
  · exact .tooLarge _
  split
  · exact .tooLarge _
  split
  · rw [if_neg (by omega)]
    exact .error _
  · rw [if_pos (by omega)]
    exact .ok drawn

/-- What an operation on the outline of the innermost group leaves of a reading. -/
theorem sketch_eq (action : Outline → Metered Outline) (reading : Reading) :
    ∃ usage, reading.sketch action =
      { reading with
        top := { reading.top with
          outline := ((action reading.top.outline).run reading.usage).1 }
        usage := usage } :=
  ⟨_, rfl⟩

theorem height_of_takesOver {flags : Flags} {shape : Shape} {o : Outline}
    (h : o.takesOver flags shape = true) : shape.height = 1 := by
  cases shape with
  | set members => rfl
  | _ => simp [Outline.takesOver] at h

theorem Drawn.push (h : reading.Drawn Frame.Joined s) {expr expr' : Expr} {shape shape' : Shape}
    (exprs : expr.unnumbered = expr') (like : Like shape shape') :
    Follows source (Drawn Frame.Open) (reading.push source expr shape) (s.push expr' shape') := by
  obtain ⟨part, parts, part_like⟩ :=
    Outline.push_run reading.flags shape reading.top.outline reading.usage
  obtain ⟨usage, sketched⟩ := sketch_eq (Outline.push reading.flags shape) reading
  have string : Like part (shape'.asString s.flags) := by
    rw [← h.flags]
    refine part_like.trans ?_
    rw [bare_asString, like, bare_asString]
  have drawn : Drawn Frame.Open
      { reading with
        top := { reading.top with
          exprs := expr :: reading.top.exprs
          outline := { reading.top.outline with
            parts := part :: reading.top.outline.parts
            joined := false } }
        last := []
        usage := usage }
      { s with
        top := { s.top with
          exprs := expr' :: s.top.exprs
          parts := shape'.asString s.flags :: s.top.parts }
        last := [] } := by
    have top := h.top
    refine ⟨h.flags, rfl, ⟨⟨top.name, top.flags, top.finished, ?_, top.choices⟩, rfl, ?_, ?_⟩,
      h.outer⟩
    · simp [exprs, top.exprs]
    · exact congrArg some string
    · exact top.parts
  unfold Reading.push Sketch.push
  rw [sketched, parts]
  simp only
  split
  · rename_i takes
    have height : shape'.height ≤ maxHeight := by
      rw [← height_bare, ← like, height_bare, height_of_takesOver takes]
      decide
    rw [Sketch.within, if_pos height]
    exact .ok drawn
  · exact (measure_follows (fun _ _ => Frame.Open.weighed) drawn like).within

theorem Drawn.add (h : reading.Drawn Frame.Open s) {expr : Expr} (shape : Shape)
    (exprs : expr.unnumbered = expr) :
    Follows source (Drawn Frame.Open) (reading.add source expr shape) (s.push expr shape) :=
  ((h.imp fun _ _ => Frame.Open.toJoined).usage _).push exprs (Like.refl shape)

/-- The innermost group once its alternative has been put together. -/
theorem Drawn.sequence (h : reading.Drawn Frame.Open s) :
    (reading.sketch Outline.sequence).Drawn (Frame.Whole s.body) s := by
  obtain ⟨part, parts, like⟩ := Outline.sequence_run h.top.toJoined.parts reading.usage
  obtain ⟨usage, sketched⟩ := sketch_eq Outline.sequence reading
  rw [sketched, parts]
  have top := h.top
  exact ⟨h.flags, h.last,
    ⟨⟨top.name, top.flags, top.finished, top.exprs, top.choices⟩, part, rfl, like⟩, h.outer⟩

theorem measureBody_follows {shape : Shape} (h : reading.Drawn (Frame.Whole shape) s) :
    Follows source (fun next _ => next.Drawn (Frame.Whole shape) s) (reading.measureBody source)
      (Sketch.within shape ()) := by
  obtain ⟨part, parts, like⟩ := h.top.parts
  refine measure_follows (fun _ _ => Frame.Whole.weighed) h ?_
  simpa [Outline.body, parts] using like

theorem Drawn.endAlternative (h : reading.Drawn Frame.Open s) :
    Follows source (Drawn Frame.Open) (reading.endAlternative source) s.endAlternative := by
  have follows : Follows source _ _ _ := measureBody_follows h.sequence
  unfold Reading.endAlternative Sketch.endAlternative
  rw [Sketch.within_eq]
  generalize measureBody source _ = x at follows
  generalize Sketch.within s.body () = y at follows
  cases follows with
  | error fault => exact .error fault
  | tooLarge y => exact .tooLarge _
  | @ok whole _ h =>
    obtain ⟨part, parts, like⟩ := h.top.parts
    obtain ⟨choices, next, choices_like⟩ := Outline.next_run parts like h.top.choices whole.usage
    obtain ⟨usage, sketched⟩ := sketch_eq Outline.next whole
    simp only [sketched, next]
    have top := h.top
    refine .ok ⟨h.flags, rfl, ⟨⟨top.name, top.flags, ?_, rfl, choices_like⟩, rfl, rfl, .nil⟩,
      h.outer⟩
    simp [Expr.unnumbered_concat, top.exprs, top.finished]

/-- What is left of a reading when its innermost group has been put together. -/
structure Finished (s : Sketch) (result : Piece × Reading) (parts : Expr × Shape) : Prop where
  expr : result.1.expr.unnumbered = parts.1
  shape : Like result.1.shape parts.2
  name : result.2.top.group.map Prod.snd = s.top.name
  flags : result.2.top.flags = s.top.flags
  outer : List.Forall₂ Frame.Settled result.2.outer s.outer

/-- The innermost group once its alternatives have been put together. -/
theorem Drawn.choice (h : reading.Drawn Frame.Open s) :
    (reading.sketch (Outline.choice reading.flags)).Drawn
      (Frame.Whole (Shape.select s.flags s.top.choices))
      { s with top := { s.top with choices := [] } } := by
  obtain ⟨part, parts, like⟩ :=
    Outline.choice_run reading.flags h.top.choices reading.usage
  obtain ⟨usage, sketched⟩ := sketch_eq (Outline.choice reading.flags) reading
  rw [sketched, parts]
  have top := h.top
  rw [h.flags] at like
  exact ⟨h.flags, h.last,
    ⟨⟨top.name, top.flags, top.finished, top.exprs, .nil⟩, part, rfl, like⟩, h.outer⟩

theorem Drawn.finish (h : reading.Drawn Frame.Open s) :
    Follows source (Finished s) (reading.finish source) s.finish := by
  have follows : Follows source _ _ _ := h.endAlternative
  unfold Reading.finish Sketch.finish
  generalize Reading.endAlternative source reading = x at follows
  -- the group and what is around it stay as they were
  have kept : ∀ s', s.endAlternative = some s' →
      s'.top.name = s.top.name ∧ s'.top.flags = s.top.flags ∧ s'.outer = s.outer := by
    intro s' hs
    unfold Sketch.endAlternative Sketch.within at hs
    split at hs
    · cases hs
      exact ⟨rfl, rfl, rfl⟩
    · cases hs
  generalize s.endAlternative = y at follows kept
  cases follows with
  | error fault => exact .error fault
  | tooLarge y => exact .tooLarge _
  | @ok next s' h' =>
    obtain ⟨name, flags, outer⟩ := kept s' rfl
    have follows : Follows source _ _ _ := measureBody_follows h'.choice
    simp only
    rw [Sketch.within_eq]
    generalize measureBody source _ = x at follows
    generalize Sketch.within _ () = y at follows
    cases follows with
    | error fault => exact .error fault
    | tooLarge y => exact .tooLarge _
    | @ok last _ h =>
      obtain ⟨part, parts, like⟩ := h.top.parts
      have top := h.top
      refine .ok ⟨?_, ?_, top.name.trans name, top.flags.trans flags, outer ▸ h.outer⟩
      · simp [Expr.unnumbered_choice, top.finished]
      · simpa [Outline.body, parts] using like

/-- The empty text is never too high. -/
theorem measure_empty_follows (h : reading.Drawn Frame.Open s) :
    Follows source (Drawn Frame.Open) (measure source .empty reading) (some s) := by
  have low : Sketch.within .empty s = some s := if_pos (by decide)
  rw [← low]
  exact (measure_follows (fun _ _ => Frame.Open.weighed) h (Like.refl .empty)).within

theorem Drawn.bar (h : reading.Drawn Frame.Open s) :
    Follows source (Drawn Frame.Open) (reading.bar source) s.endAlternative := by
  have follows : Follows source _ _ _ := h.endAlternative
  unfold Reading.bar
  generalize Reading.endAlternative source reading = x at follows
  generalize s.endAlternative = y at follows
  cases follows with
  | error fault => exact .error fault
  | tooLarge y => exact .tooLarge _
  | ok next =>
    simp only
    split
    · exact measure_empty_follows (next.usage _)
    · exact .ok next

theorem Drawn.enter (h : reading.Drawn Frame.Open s) (group : Option (Nat × Bytes)) (groups : Nat)
    (flags : Flags) :
    Follows source (Drawn Frame.Open) (reading.enter source group groups flags)
      (some (s.enter (group.map Prod.snd) flags)) := by
  obtain ⟨usage, sketched⟩ := sketch_eq Outline.settle (reading.meter Usage.take).2
  obtain ⟨_, settled⟩ := Outline.settle_run (reading.meter Usage.take).2.top.outline
    (reading.meter Usage.take).2.usage
  unfold Reading.enter
  rw [sketched, settled]
  refine measure_empty_follows ⟨rfl, rfl, ⟨⟨rfl, h.flags, rfl, rfl, .nil⟩, rfl, rfl, .nil⟩, ?_⟩
  have top := h.top
  exact .cons ⟨⟨⟨top.name, top.flags, top.finished, top.exprs, top.choices⟩, top.toJoined.parts⟩, rfl⟩
    h.outer

theorem Drawn.leave (h : reading.Drawn Frame.Open s) :
    Follows source (Drawn Frame.Open) (reading.leave source) s.leave := by
  have follows : Follows source _ _ _ := h.finish
  unfold Reading.leave Sketch.leave
  generalize Reading.finish source reading = x at follows
  generalize s.finish = y at follows
  cases follows with
  | error fault => exact .error fault
  | tooLarge y => exact .tooLarge _
  | @ok result parts done =>
    obtain ⟨body, next⟩ := result
    obtain ⟨expr, shape⟩ := parts
    obtain ⟨expr_eq, like, name, flags, outer⟩ := done
    simp only at *
    generalize next.outer = frames at outer
    generalize s.outer = layers at outer
    cases outer with
    | nil => exact .error _
    | @cons frame layer _ _ first rest =>
      have around : Drawn Frame.Joined ⟨next.top.flags, next.groups, frame, _, [], next.usage⟩
          ⟨s.top.flags, layer, _, []⟩ := ⟨flags, rfl, first.toJoined, rest⟩
      unfold Sketch.close
      generalize next.top.group = group at name
      generalize s.top.name = name' at name
      cases group with
      | none =>
        cases name with
        | refl => exact around.push expr_eq like
      | some group =>
        cases name with
        | refl =>
          refine around.push ?_ ?_
          · simp [expr_eq]
          · simpa [Like, bare] using like

theorem Drawn.repeatLast (h : reading.Drawn Frame.Open s) (count : Count) (marked : Bool)
    (text : Bytes) :
    Follows source (Drawn Frame.Open) (reading.repeatLast source count marked text)
      (s.repeatLast count marked text) := by
  have top := h.top
  have exprs := top.exprs
  have last := top.last
  have before := top.before
  unfold Reading.repeatLast Sketch.repeatLast
  rw [h.last]
  split
  · exact .error _
  · generalize hes : reading.top.exprs = es at exprs
    generalize hps : reading.top.outline.parts = ps at last before
    generalize hes' : s.top.exprs = es' at exprs
    generalize hps' : s.top.parts = ps' at last before
    match es, es', ps, ps', exprs, last with
    | [], [], _, _, _, _ => exact .error _
    | _ :: _, _ :: _, [], [], _, _ => exact .error _
    | body :: es, _ :: _, part :: ps, part' :: ps', rfl, last =>
      have like : Like (.repeated count (marked == s.flags.lazy) part)
          (.repeated count (marked == s.flags.lazy) part') := by
        simp only [List.head?_cons, Option.map_some, Option.some.injEq] at last
        simp [Like, bare, last]
      have fit : countsFit count (.repeated count (marked == s.flags.lazy) body) =
          countsFit count (.repeated count (marked == s.flags.lazy) body.unnumbered) := by
        cases count <;> simp [countsFit, ← Expr.unnumbered_repeated]
      have drawn : Drawn Frame.Open
          { (reading.meter Usage.take).2 with
            top := { reading.top with
              exprs := .repeated count (marked == s.flags.lazy) body :: es
              outline := { reading.top.outline with
                parts := .repeated count (marked == s.flags.lazy) part :: ps } }
            last := text }
          { s with
            top := { s.top with
              exprs := .repeated count (marked == s.flags.lazy) body.unnumbered ::
                es.map Expr.unnumbered
              parts := .repeated count (marked == s.flags.lazy) part' :: ps' }
            last := text } := by
        refine ⟨h.flags, rfl, ⟨⟨top.name, top.flags, top.finished, ?_, top.choices⟩, top.joined,
          congrArg some like, before⟩, h.outer⟩
        simp [Expr.unnumbered_repeated]
      have measured : Follows source _ _ _ := (measure_follows (fun _ _ => Frame.Open.weighed) drawn
        like).within (R := Drawn Frame.Open)
      simp only [h.flags, fit]
      rw [show (reading.meter Usage.take).2.top = reading.top from rfl]
      generalize measure source _ _ = x at measured ⊢
      generalize Sketch.within _ _ = y at measured ⊢
      cases measured with
      | tooLarge y => exact .tooLarge _
      | error fault =>
        rw [ite_self]
        exact .error _
      | ok next =>
        simp only
        split
        · exact .ok next
        · exact .error _

/-- One token. -/
theorem Drawn.step (h : reading.Drawn Frame.Open s) (token : Token) :
    Follows source (Drawn Frame.Open) (reading.step source token) (s.step token) := by
  cases token with
  | char code =>
    simp only [Reading.step, Sketch.step, h.flags]
    exact h.add _ rfl
  | set items negated =>
    simp only [Reading.step, Sketch.step, h.flags]
    exact h.add _ rfl
  | dot =>
    simp only [Reading.step, Sketch.step, h.flags]
    exact h.add _ rfl
  | caret =>
    simp only [Reading.step, Sketch.step, h.flags]
    exact h.add _ rfl
  | dollar =>
    simp only [Reading.step, Sketch.step, h.flags]
    exact h.add _ rfl
  | test condition => exact h.add (.test condition) rfl
  | capture name =>
    simp only [Reading.step, Sketch.step, h.flags]
    exact h.enter (some (reading.groups + 1, name)) _ _
  | enclose changes =>
    simp only [Reading.step, Sketch.step, h.flags]
    exact h.enter none _ _
  | change changes =>
    simp only [Reading.step, Sketch.step, h.flags]
    exact .ok ⟨rfl, rfl, h.top, h.outer⟩
  | close => exact h.leave
  | bar => exact h.bar
  | repeated count marked text => exact h.repeatLast count marked text

/-- Tokens one after another. -/
theorem Drawn.run (h : reading.Drawn Frame.Open s) (tokens : List Token) :
    Follows source (Drawn Frame.Open) (reading.run source (tokens.map .ok)) (s.run tokens) := by
  induction tokens generalizing reading s with
  | nil => exact .ok h
  | cons token rest ih =>
    have follows : Follows source _ _ _ := h.step token
    simp only [List.map_cons, Reading.run, Sketch.run]
    generalize reading.step source token = x at follows
    generalize s.step token = y at follows
    cases follows with
    | error fault => exact .error fault
    | tooLarge y => exact .tooLarge _
    | ok next => exact ih next

theorem start_drawn : start.Drawn Frame.Open Sketch.start :=
  ⟨rfl, rfl, ⟨⟨rfl, rfl, rfl, rfl, .nil⟩, rfl, rfl, .nil⟩, .nil⟩

/-- A run that comes to its end has met no fault in a token. -/
theorem run_ok {tokens : List (Except Fault Token)} {next : Reading}
    (h : reading.run source tokens = .ok next) : ∃ ts : List Token, tokens = ts.map .ok := by
  induction tokens generalizing reading with
  | nil => exact ⟨[], rfl⟩
  | cons token rest ih =>
    cases token with
    | error fault => simp [Reading.run] at h
    | ok token =>
      simp only [Reading.run] at h
      split at h
      · cases h
      · obtain ⟨ts, rfl⟩ := ih h
        exact ⟨token :: ts, rfl⟩

end Reading

/-- What a piece has to do with what the sketch reads: it differs in numbers and weights only. -/
def Piece.Drawn (piece : Piece) (parts : Expr × Shape) : Prop :=
  piece.expr.unnumbered = parts.1 ∧ Like piece.shape parts.2

/-- A pattern whose tokens have no fault is read as the sketch reads them, unless it is too large. -/
theorem Piece.parse_follows {source : Bytes} {tokens : List Token}
    (scanned : Token.scan source.scalars = tokens.map .ok) :
    Follows source Piece.Drawn (Piece.parse source) (Sketch.read tokens) := by
  have follows : Follows source _ _ _ := Reading.start_drawn.run tokens
  unfold Piece.parse Sketch.read
  rw [scanned]
  generalize Reading.run source .start _ = x at follows
  generalize Sketch.start.run tokens = y at follows
  cases follows with
  | error fault => exact .error fault
  | tooLarge y => exact .tooLarge _
  | @ok reading s drawn =>
    have follows : Follows source _ _ _ := drawn.finish
    have outer : reading.outer.isEmpty = s.outer.isEmpty := by
      have frames := drawn.outer
      generalize reading.outer = frames' at frames
      generalize s.outer = layers at frames
      cases frames <;> rfl
    simp only [outer]
    generalize reading.finish source = x at follows
    generalize s.finish = y at follows
    cases follows with
    | error fault =>
      simp only [ite_self]
      exact .error fault
    | tooLarge y => exact .tooLarge _
    | ok done =>
      simp only
      split
      · exact .ok ⟨done.expr, done.shape⟩
      · exact .error _

/-- The tokens of a pattern that is read have no fault. -/
theorem Piece.scan_of_parse {source : Bytes} {piece : Piece} (h : Piece.parse source = .ok piece) :
    ∃ tokens : List Token, Token.scan source.scalars = tokens.map .ok := by
  unfold Piece.parse at h
  split at h
  · cases h
  · rename_i reading run
    exact Reading.run_ok run

end Pattern

end Rulebook

import Rulebook.Pattern.Lead
import Rulebook.Proofs.Pattern.Nesting
import Rulebook.Proofs.Pattern.Price

/-!
# Tokens that add parts

Most tokens of a pattern, taken in the right portions, add parts to the alternative at hand and
leave all else as it is. `Adds` says so of a portion, together with what the parts denote and what
they cost; a group of portions, repeated or not, is a portion again.
-/

namespace Rulebook

namespace Pattern

namespace Sketch

variable {name : Option Bytes} {back : Flags} {around : List Layer}

theorem endPrice_place (s : Sketch) : (s.place name back around).endPrice = s.endPrice := by
  obtain ⟨flags, top, outer, last⟩ := s
  cases outer <;> rfl

theorem finishPrice_place (s : Sketch) :
    (s.place name back around).finishPrice = s.finishPrice := by
  unfold finishPrice
  rw [endPrice_place, endAlternative_place]
  cases s.endPrice with
  | none => rfl
  | some p =>
    cases s.endAlternative with
    | none => rfl
    | some next =>
      obtain ⟨flags, top, outer, last⟩ := next
      cases outer <;> rfl

/-- The price of a token does not depend on what is around the group, unless it closes the group. -/
theorem price_place {s : Sketch} {token : Token} (h : token = .close → s.outer ≠ []) :
    (s.place name back around).price token = s.price token := by
  have flags : (s.place name back around).flags = s.flags := by
    obtain ⟨flags, top, outer, last⟩ := s
    cases outer <;> rfl
  cases token with
  | close =>
    have group : (s.place name back around).top.name = s.top.name := by
      obtain ⟨flags, top, outer, last⟩ := s
      cases outer with
      | nil => exact absurd rfl (h rfl)
      | cons => rfl
    simp only [price, finishPrice_place, finish_place, group]
  | bar => simp only [price, endPrice_place]
  | _ => simp only [price, flags]

theorem bill_place {s : Sketch} {tokens : List Token} {n : Nat}
    (h : Token.levels s.outer.length tokens = some n) :
    (s.place name back around).bill tokens = s.bill tokens := by
  induction tokens generalizing s with
  | nil => rfl
  | cons token rest ih =>
    have inside : token = .close → s.outer ≠ [] := by
      rintro rfl none
      simp [Token.levels, none] at h
    simp only [bill, price_place inside, step_place inside]
    cases s.price token with
    | none => rfl
    | some p =>
      cases step : s.step token with
      | none => rfl
      | some next =>
        have levels := levels_step step
        have rest_levels : Token.levels next.outer.length rest = some n := by
          rw [← List.singleton_append, Token.levels_append, levels] at h
          simpa using h
        simp [ih rest_levels]

theorem bill_append {s t : Sketch} {xs ys : List Token} {p q : Price} (run : s.run xs = some t)
    (first : s.bill xs = some p) (second : t.bill ys = some q) :
    s.bill (xs ++ ys) = some (p + q) := by
  induction xs generalizing s p with
  | nil =>
    cases run
    cases first
    rw [List.nil_append, second]
    congr 1
    ext <;> simp
  | cons x xs ih =>
    simp only [bill, Option.bind_eq_bind, Option.bind_eq_some_iff, Option.pure_def,
      Option.some.injEq] at first
    obtain ⟨price, hprice, next, hstep, others, hbill, rfl⟩ := first
    simp only [Sketch.run, hstep] at run
    simp only [List.cons_append, bill, hprice, hstep, Option.bind_eq_bind, Option.bind_some,
      ih run hbill, Option.pure_def, Price.add_assoc]

end Sketch

/-! ### Choices between groups -/

namespace Shape

/-- True of a group that captures, and of a repetition of one without counts. Such shapes have
    nothing in common that could be taken out in front of a choice between them. -/
def isOpaque : Shape → Bool
  | captured _ _ => true
  | repeated (.times _ _) _ _ => false
  | repeated _ _ (captured _ _) => true
  | _ => false

/-- What an opaque shape is not. -/
structure Opaque (s : Shape) : Prop where
  leadingString : s.leadingString = ([], false)
  leadingPart : s.leadingPart = some s
  sameStart : ∀ t, sameStart s t = false
  oneOf? : s.oneOf? = none
  links : s.links = [s]
  flatten : ∀ rest, flatten (s :: rest) = (do let others ← flatten rest; pure (s :: others))
  full : s ≠ empty
  clean : s.clean = s
  asString : ∀ flags, s.asString flags = s
  listed : s.listed = 0
  isCounted : s.isCounted = false
  literal : ∀ codes flags noted, s ≠ literal codes flags noted

theorem opaque_of_isOpaque {s : Shape} (h : s.isOpaque = true) : Opaque s := by
  cases s with
  | captured index body =>
    constructor <;> intros <;> first | rfl | (intro h; cases h)
  | repeated count greedy body =>
    cases count with
    | times min max => simp [isOpaque] at h
    | _ =>
      constructor <;> intros <;> first | rfl | (intro h; cases h)
  | _ => simp [isOpaque] at h

theorem groupByString_go_opaques {lead : List Nat × Bool} (empty : lead.1 = []) {members : List Shape}
    {parts : List Shape} (h : ∀ part ∈ parts, Opaque part) :
    groupByString.go lead members parts =
      (lead, members.reverse) :: parts.map fun part => (([], false), [part]) := by
  induction parts generalizing lead members with
  | nil => rfl
  | cons part rest ih =>
    have here := h part (by simp)
    have none_common : ∀ codes, commonStart [] codes = [] := fun _ => rfl
    simp only [groupByString.go, here.leadingString, empty, none_common, ite_self,
      List.isEmpty_nil, if_true]
    rw [ih rfl fun p hp => h p (by simp [hp])]
    rfl

theorem groupByPart_go_opaques {lead : Shape} (h' : Opaque lead) {members : List Shape}
    {parts : List Shape} (h : ∀ part ∈ parts, Opaque part) :
    groupByPart.go (some lead) members parts =
      (some lead, members.reverse) :: parts.map fun part => (some part, [part]) := by
  induction parts generalizing lead members with
  | nil => rfl
  | cons part rest ih =>
    have here := h part (by simp)
    simp only [groupByPart.go, here.leadingPart, h'.sameStart, Bool.false_eq_true, if_false]
    rw [ih here fun p hp => h p (by simp [hp])]
    rfl

theorem flatten_opaques {parts : List Shape} (h : ∀ part ∈ parts, Opaque part) :
    flatten parts = pure parts := by
  induction parts with
  | nil => rfl
  | cons part rest ih =>
    rw [(h part (by simp)).flatten, ih fun p hp => h p (by simp [hp])]
    rfl

theorem joinChars_opaques {parts : List Shape} (h : ∀ part ∈ parts, Opaque part) :
    joinChars parts = pure parts := by
  have go : ∀ (last : Shape) (rest : List Shape), Opaque last → (∀ part ∈ rest, Opaque part) →
      joinChars.go last false rest = pure (last :: rest) := by
    intro last rest here others
    induction rest generalizing last with
    | nil => rfl
    | cons part rest ih =>
      simp only [joinChars.go, here.oneOf?]
      rw [ih part (others part (by simp)) fun p hp => others p (by simp [hp])]
      rfl
  cases parts with
  | nil => rfl
  | cons part rest => exact go part rest (h part (by simp)) fun p hp => h p (by simp [hp])

theorem joinEmpty_opaques {parts : List Shape} (h : ∀ part ∈ parts, Opaque part) :
    joinEmpty parts = parts := by
  induction parts using joinEmpty.induct with
  | case1 rest ih => exact absurd rfl (h empty (by simp)).full
  | case2 part rest sole ih =>
    rw [joinEmpty, ih fun p hp => h p (by simp [hp])]
    exact sole
  | case3 => rfl

/-- A choice between opaque shapes stays as it is, and takes one node. -/
theorem choose_opaques {first second : Shape} {rest : List Shape}
    (h : ∀ part ∈ first :: second :: rest, Opaque part) (n : Nat) :
    (choose (n + 1) (first :: second :: rest)).run {} =
      (alt (first :: second :: rest) none, { made := 1 }) := by
  have strings : groupByString (first :: second :: rest) =
      (first :: second :: rest).map fun part => (([], false), [part]) := by
    have here := h first (by simp)
    simp only [groupByString]
    rw [groupByString_go_opaques (by rw [here.leadingString]) fun p hp => h p (by simp [hp]),
      here.leadingString]
    rfl
  have starts : groupByPart (first :: second :: rest) =
      (first :: second :: rest).map fun part => (some part, [part]) := by
    have here := h first (by simp)
    simp only [groupByPart, here.leadingPart]
    rw [groupByPart_go_opaques here fun p hp => h p (by simp [hp])]
    rfl
  have singles {α : Type} (key : Shape → α) (F : α × List Shape → Metered Shape)
      (single : ∀ part, F (key part, [part]) = pure part) (parts : List Shape) :
      (parts.map fun part => (key part, [part])).mapM F = pure parts := by
    induction parts with
    | nil => rfl
    | cons part rest ih =>
      rw [List.map_cons, List.mapM_cons, single, ih]
      rfl
  rw [choose]
  · simp only [flatten_opaques h, pure_bind, strings]
    rw [singles (fun _ => ([], false)) _ fun _ => rfl]
    simp only [pure_bind, starts]
    rw [singles some _ fun _ => rfl]
    simp only [pure_bind, joinChars_opaques h, joinEmpty_opaques h]
    rfl
  · simp

end Shape

/-! ### Portions -/

namespace Shape

mutual

/-- True of a shape without counts that has no string with a surrogate or without regard to case,
    and no set that starts a range at a surrogate or is one letter in two cases. -/
def isTame : Shape → Bool
  | literal codes flags _ => !flags.fold && codes.all fun code => !Net.isSurrogate code
  | set members =>
      (members.ranges.all fun range => !Net.isSurrogate range.1) &&
        (singleCode? members).all fun code => !code.2
  | captured _ body => body.isTame
  | repeated (.times _ _) _ _ => false
  | repeated _ _ body => body.isTame
  | cat parts _ => areTame parts
  | alt parts _ => areTame parts
  | _ => true

/-- True of tame shapes. -/
def areTame : List Shape → Bool
  | [] => true
  | part :: rest => part.isTame && areTame rest

end

end Shape

/-- A sketch with more parts in the alternative at hand. -/
def Sketch.extended (s : Sketch) (exprs : List Expr) (parts : List Shape) (last : Bytes) : Sketch :=
  { s with
    top := { s.top with
      exprs := exprs.reverse ++ s.top.exprs
      parts := parts.reverse ++ s.top.parts }
    last := last }

/-- Tokens that add parts to the alternative at hand, wherever they stand, at a price. -/
structure Adds (tokens : List Token) (exprs : List Expr) (parts : List Shape) (p : Price) :
    Prop where
  run : ∀ s : Sketch, s.flags = {} → ∃ last,
    s.run tokens = some (s.extended exprs parts last) ∧ s.bill tokens = some p

namespace Adds

theorem nil : Adds [] [] [] ⟨0, 0⟩ :=
  ⟨fun s _ => ⟨s.last, rfl, rfl⟩⟩

theorem append {xs ys : List Token} {es fs : List Expr} {ps qs : List Shape} {p q : Price}
    (h : Adds xs es ps p) (h' : Adds ys fs qs q) : Adds (xs ++ ys) (es ++ fs) (ps ++ qs) (p + q) := by
  constructor
  intro s flags
  obtain ⟨last, run, bill⟩ := h.run s flags
  obtain ⟨last', run', bill'⟩ := h'.run (s.extended es ps last) flags
  refine ⟨last', ?_, Sketch.bill_append run bill bill'⟩
  rw [Sketch.run_append, run]
  simpa [Sketch.extended] using run'

theorem bill_single {s t : Sketch} {token : Token} {p : Price} (step : s.step token = some t)
    (price : s.price token = some p) : s.bill [token] = some p := by
  simp only [Sketch.bill, price, step, Option.bind_eq_bind, Option.bind_some, Option.pure_def,
    Option.some.injEq]
  ext <;> simp

/-- A token that adds a part by itself. -/
theorem single {token : Token} {e : Expr} {shape : Shape} {p : Price}
    (step : ∀ s : Sketch, s.flags = {} → s.step token = s.push e shape)
    (price : ∀ s : Sketch, s.flags = {} → s.price token = some p)
    (height : shape.height ≤ maxHeight) : Adds [token] [e] [shape.asString {}] p := by
  constructor
  intro s flags
  have pushed : s.step token = some (s.extended [e] [shape.asString {}] []) := by
    rw [step s flags, ← flags]
    exact if_pos height
  refine ⟨[], ?_, bill_single pushed (price s flags)⟩
  rw [Sketch.run, pushed]
  rfl

theorem char (code : Nat) :
    Adds [.char code] [.one (CaseFold.alike false code)] [.literal [code] {} none] ⟨1, 1⟩ :=
  @single _ _ (.ofChar {} code) _ (fun s flags => by rw [Sketch.step, flags]; rfl)
    (fun s flags => by rw [Sketch.price, flags]; rfl)
    (by simp [Shape.ofChar, Shape.height, maxHeight])

end Adds

/-- The tokens of a whole pattern that are read to an expression and a shape, at a price. -/
structure Read (tokens : List Token) (e : Expr) (shape : Shape) (p : Price) : Prop where
  read : Sketch.read tokens = some (e, shape)
  price : Sketch.readPrice tokens = some p

namespace Read

variable {inner : List Token} {e : Expr} {shape : Shape} {p : Price}

theorem balanced (h : Read inner e shape p) : Token.Balanced inner :=
  Sketch.balanced_of_readWith h.read

theorem bill_enter (h : Read inner e shape p) {s : Sketch} {name : Option Bytes} {q : Price} (group : Sketch.groupPrice name shape = some q)
    {t : Sketch} (closed : Sketch.close name e shape { s with last := [] } = some t) :
    (s.enter name {}).bill (inner ++ [Token.close]) = some (p + q) := by
  have price := h.price
  have read := h.read
  simp only [Sketch.readPrice, Option.bind_eq_bind, Option.bind_eq_some_iff, Option.pure_def,
    Option.some.injEq] at price
  obtain ⟨billed, bill, u, run, finished, finishPrice, rfl⟩ := price
  simp only [Sketch.read, run] at read
  split at read
  · rename_i empty
    have outer : u.outer = [] := by simpa using empty
    have placed : s.enter name {} = Sketch.start.place name s.flags (s.top :: s.outer) := rfl
    have inside := h.balanced 0
    rw [Price.add_assoc, placed]
    refine Sketch.bill_append (t := u.place name s.flags (s.top :: s.outer)) ?_ ?_ ?_
    · rw [Sketch.run_place (s := Sketch.start) inside, run]
      rfl
    · rw [Sketch.bill_place (s := Sketch.start) inside, bill]
    · have step : (u.place name s.flags (s.top :: s.outer)).step .close = some t := by
        rw [← closed, Sketch.step, Sketch.leave, Sketch.finish_place, read]
        obtain ⟨flags', top, outer', last⟩ := u
        subst outer
        rfl
      refine Adds.bill_single step ?_
      have top : (u.place name s.flags (s.top :: s.outer)).top.name = name := by
        obtain ⟨flags', top, outer', last⟩ := u
        subst outer
        rfl
      simp only [Sketch.price, Sketch.finishPrice_place, finishPrice, Sketch.finish_place, read, top,
        group, Option.bind_eq_bind, Option.bind_some, Option.pure_def]
  · cases read

theorem run_enter (h : Read inner e shape p) {s : Sketch} (name : Option Bytes) :
    (s.enter name {}).run (inner ++ [Token.close]) =
      Sketch.close name e shape { s with last := [] } := by
  rw [Sketch.run_enter h.balanced, ← Sketch.read_eq, h.read]

theorem captured_run (h : Read inner e shape p) (name : Bytes) (fits : shape.height < maxHeight)
    {s : Sketch} (flags : s.flags = {}) :
    s.run (.capture name :: (inner ++ [Token.close])) =
        some (s.extended [.group 0 name e] [.captured 0 shape] []) ∧
      s.bill (.capture name :: (inner ++ [Token.close])) = some (⟨1, 0⟩ + (p + ⟨0, 0⟩)) := by
  have step : s.step (.capture name) = some (s.enter (some name) {}) := by
    rw [Sketch.step, flags]
  have closed : Sketch.close (some name) e shape { s with last := [] } =
      some (s.extended [.group 0 name e] [.captured 0 shape] []) := by
    refine if_pos ?_
    rw [Shape.height]
    omega
  constructor
  · rw [Sketch.run, step]
    simp only
    rw [h.run_enter, closed]
  · simp only [Sketch.bill, Sketch.price, step, h.bill_enter rfl closed, Option.bind_eq_bind,
      Option.bind_some, Option.pure_def]

/-- A group that captures. -/
theorem captured (h : Read inner e shape p) (name : Bytes) (fits : shape.height < maxHeight) :
    Adds (.capture name :: (inner ++ [Token.close])) [.group 0 name e] [.captured 0 shape]
      (⟨1, 0⟩ + (p + ⟨0, 0⟩)) :=
  ⟨fun _ flags => ⟨[], h.captured_run name fits flags⟩⟩

/-- A group that does not capture. -/
theorem enclosed (h : Read inner e shape p) (plain : shape.isCounted = false)
    (fits : shape.height ≤ maxHeight) :
    Adds (.enclose [] :: (inner ++ [Token.close])) [e] [shape.asString {}]
      (⟨1, 0⟩ + (p + ⟨0, shape.listed⟩)) := by
  constructor
  intro s flags
  have step : s.step (.enclose []) = some (s.enter none {}) := by
    rw [Sketch.step, flags]
    rfl
  have closed : Sketch.close none e shape { s with last := [] } =
      some (s.extended [e] [shape.asString {}] []) := by
    rw [← flags]
    exact if_pos fits
  have group : Sketch.groupPrice none shape = some ⟨0, shape.listed⟩ := by
    simp [Sketch.groupPrice, Sketch.partPrice, plain]
  refine ⟨[], ?_, ?_⟩
  · rw [Sketch.run, step]
    simp only
    rw [h.run_enter, closed]
  · simp only [Sketch.bill, Sketch.price, step, h.bill_enter group closed,
      Option.bind_eq_bind, Option.bind_some, Option.pure_def]

/-- A group that captures, repeated. -/
theorem repeated (h : Read inner e shape p) (name : Bytes) (fits : shape.height + 1 < maxHeight)
    {count : Count} (plain : ∀ min max, count ≠ .times min max) (isLazy : Bool) (text : Bytes) :
    Adds (Token.capture name :: (inner ++ [Token.close]) ++ [Token.repeated count isLazy text])
      [.repeated count (!isLazy) (.group 0 name e)]
      [.repeated count (!isLazy) (.captured 0 shape)] (⟨1, 0⟩ + (p + ⟨0, 0⟩) + ⟨1, 0⟩) := by
  constructor
  intro s flags
  obtain ⟨run, bill⟩ := h.captured_run name (by omega) flags
  have counts : ∀ e, Reading.countsFit count e = true := by
    intro e
    cases count with
    | times min max => exact absurd rfl (plain min max)
    | _ => rfl
  have height : (Shape.repeated count (!isLazy) (.captured 0 shape)).height ≤ maxHeight := by
    simp only [Shape.height]
    omega
  have step : (s.extended [.group 0 name e] [.captured 0 shape] []).step
        (.repeated count isLazy text) =
      some (s.extended [.repeated count (!isLazy) (.group 0 name e)]
        [.repeated count (!isLazy) (.captured 0 shape)] text) := by
    have greedy : (isLazy == s.flags.lazy) = !isLazy := by
      rw [flags]
      cases isLazy <;> rfl
    simp only [Sketch.step, Sketch.repeatLast, Sketch.extended, List.reverse_cons, List.reverse_nil,
      List.nil_append, List.cons_append, List.isEmpty_nil, Bool.not_true, Bool.false_eq_true,
      if_false, counts, if_true, greedy]
    exact if_pos height
  have price : (s.extended [.group 0 name e] [.captured 0 shape] []).price
      (.repeated count isLazy text) = some ⟨1, 0⟩ := by
    cases count with
    | times min max => exact absurd rfl (plain min max)
    | _ => rfl
  refine ⟨text, ?_, Sketch.bill_append run bill (Adds.bill_single step price)⟩
  rw [Sketch.run_append, run, Option.bind_some, Sketch.run, step]
  rfl

end Read

/-! ### Alternatives -/

namespace Sketch

/-- A sketch whose last alternative, and the choice between all of them, is put together. -/
theorem finish_eq {s : Sketch} (fits : s.body.height ≤ maxHeight)
    (fits' : (Shape.select s.flags (s.body.also s.top.choices)).height ≤ maxHeight) :
    s.finish = some (.choice (.concat s.top.exprs.reverse :: s.top.finished).reverse,
      Shape.select s.flags (s.body.also s.top.choices)) := by
  unfold finish endAlternative
  rw [within, if_pos fits]
  exact if_pos fits'

theorem finishPrice_eq {s : Sketch} (fits : s.body.height ≤ maxHeight)
    (plain : s.body.isCounted = false) {q : Price}
    (choice : choicePrice s.flags (s.body.also s.top.choices) = some q) :
    s.finishPrice = some (⟨1, s.body.listed⟩ + q) := by
  unfold finishPrice endPrice endAlternative
  rw [within, if_pos fits, if_neg (by simp [plain])]
  simp [choice]

end Sketch

namespace Shape

theorem isCounted_clean (s : Shape) (flags : Flags) :
    (s.clean.asString flags).isCounted = s.isCounted := by
  cases s with
  | set members =>
    rw [clean]
    split
    · rfl
    · split
      · rfl
      · rw [asString]
        split <;> rfl
  | _ => rfl

end Shape

namespace Adds

variable {tokens : List Token} {exprs : List Expr} {parts : List Shape} {p : Price}

/-- Parts that are all there is. -/
theorem read (h : Adds tokens exprs parts p) (fits : (Shape.sequence parts).height ≤ maxHeight)
    (plain : (Shape.sequence parts).isCounted = false) :
    Read tokens (.concat exprs) ((Shape.sequence parts).clean.asString {})
      (p + (⟨1, (Shape.sequence parts).listed⟩ + ⟨0, (Shape.sequence parts).clean.listed⟩)) := by
  obtain ⟨last, run, bill⟩ := h.run Sketch.start rfl
  generalize state : Sketch.start.extended exprs parts last = s at run
  have body : s.body = Shape.sequence parts := by
    simp [← state, Sketch.body, Sketch.extended, Sketch.start]
  have flags : s.flags = {} := by rw [← state]; rfl
  have choices : s.top.choices = [] := by rw [← state]; rfl
  have finished : s.top.finished = [] := by rw [← state]; rfl
  have exprs_eq : s.top.exprs.reverse = exprs := by simp [← state, Sketch.extended, Sketch.start]
  have outer : s.outer = [] := by rw [← state]; rfl
  have select : Shape.select {} [Shape.sequence parts] =
      (Shape.sequence parts).clean.asString {} := rfl
  have price : Sketch.choicePrice {} [Shape.sequence parts] =
      some ⟨0, (Shape.sequence parts).clean.listed⟩ := by
    have chosen : (Shape.choose (Shape.total (Shape.eachWeighed [(Shape.sequence parts).clean]) + 1)
        [(Shape.sequence parts).clean]).run {} = ((Shape.sequence parts).clean, {}) := rfl
    simp only [Sketch.choicePrice, List.map_cons, List.map_nil, List.reverse_singleton, chosen,
      Shape.isCounted_clean, plain, and_self, if_true, Option.some.injEq]
    ext <;> simp
  constructor
  · rw [Sketch.read, run]
    simp only [outer, List.isEmpty_nil, if_true]
    rw [Sketch.finish_eq (by rw [body]; exact fits), body, flags, choices, finished, exprs_eq]
    · rfl
    · rw [body, flags, choices, Shape.also, select, Shape.height_asString, Shape.height_clean]
      exact fits
  · rw [Sketch.readPrice, bill, run]
    rw [← body] at plain fits
    simp only [Option.bind_eq_bind, Option.bind_some]
    rw [Sketch.finishPrice_eq fits plain (q := ⟨0, (Shape.sequence parts).clean.listed⟩), body]
    · rfl
    · rw [flags, choices, body]
      exact price

end Adds

end Pattern

end Rulebook

import Mathlib.Algebra.Ring.Nat
import Rulebook.Proofs.Pattern.Parts

/-!
# Portions of a pattern

What a pattern without counts denotes is put together from what its portions denote. A portion adds
expressions to the alternative at hand, a block adds a single group, and a text is a whole pattern;
each comes with bounds on its height and on its price, so that a pattern that is put together from
small ones is known to be read without any of it being read again.
-/

namespace Rulebook

namespace Pattern

/-! ### Tame shapes -/

namespace Shape

theorem areTame_iff {parts : List Shape} :
    areTame parts = true ↔ ∀ part ∈ parts, part.isTame = true := by
  induction parts with
  | nil => simp [areTame]
  | cons part rest ih => simp [areTame, ih]

theorem isCounted_of_isTame {s : Shape} (h : s.isTame = true) : s.isCounted = false := by
  cases s with
  | repeated count greedy body =>
    cases count with
    | times min max => simp [isTame] at h
    | _ => rfl
  | _ => rfl

theorem isTame_asString {s : Shape} (h : s.isTame = true) : (s.asString {}).isTame = true := by
  cases s with
  | set members =>
    simp only [isTame, Bool.and_eq_true] at h
    rw [asString]
    split
    · rename_i code fold single
      have plain : fold = false := by simpa [single] using h.2
      have first : Net.isSurrogate code = false := by
        unfold singleCode? at single
        split at single
        · rename_i a b ranges
          have := h.1
          simp only [ranges, List.all_cons, List.all_nil, Bool.and_true] at this
          grind -linarith
        · rename_i a b c d ranges
          have := h.1
          simp only [ranges, List.all_cons, List.all_nil, Bool.and_true] at this
          grind -linarith
        · cases single
      simp [isTame, plain, first]
    · simpa [isTame] using h
  | _ => exact h

theorem isTame_clean {s : Shape} (h : s.isTame = true) : s.clean.isTame = true := by
  cases s with
  | set members =>
    rw [clean]
    split
    · rfl
    · split
      · rfl
      · exact h
  | _ => exact h

theorem listed_clean (s : Shape) : s.clean.listed ≤ s.listed := by
  cases s with
  | set members =>
    rw [clean]
    split
    · exact Nat.zero_le _
    · split
      · exact Nat.zero_le _
      · exact Nat.le_refl _
  | _ => exact Nat.le_refl _

theorem listed_asString (s : Shape) : (s.asString {}).listed ≤ s.listed := by
  cases s with
  | set members =>
    rw [asString]
    split
    · rename_i single
      unfold singleCode? at single
      split at single
      · rename_i ranges
        simp [listed, ranges]
      · rename_i ranges
        simp [listed, ranges]
      · cases single
    · exact Nat.le_refl _
  | _ => exact Nat.le_refl _

theorem mem_links_tame {s part : Shape} (h : s.isTame = true) (mem : part ∈ s.links) :
    part.isTame = true := by
  cases s with
  | cat parts noted => exact areTame_iff.1 h part mem
  | _ =>
    rw [links, List.mem_singleton] at mem
    · exact mem ▸ h
    · simp

/-- A shape that is tame and not too high. -/
structure Calm (height : Nat) (s : Shape) : Prop where
  height : s.height ≤ height
  tame : s.isTame = true

theorem Calm.mono {h h' : Nat} {s : Shape} (calm : Calm h s) (le : h ≤ h') : Calm h' s :=
  ⟨Nat.le_trans calm.height le, calm.tame⟩

/-- How many code points several shapes list. -/
def listedAll (parts : List Shape) : Nat := (parts.map listed).sum

theorem calm_joinTo {h : Nat} {part : Shape} {rest : List Shape} (here : Calm h part)
    (others : ∀ p ∈ rest, Calm h p) : ∀ p ∈ joinTo part rest, Calm h p := by
  have apart : ∀ p ∈ part :: rest, Calm h p := by simpa using ⟨here, others⟩
  cases part with
  | literal a f noted =>
    cases rest with
    | nil => exact apart
    | cons next rest =>
      cases next with
      | literal b g m =>
        rw [joinTo]
        split
        · have second := others _ (List.mem_cons_self ..)
          have first := here.tame
          have next := second.tame
          simp only [isTame, Bool.and_eq_true] at first next
          intro p mem
          obtain rfl | mem := List.mem_cons.1 mem
          · exact ⟨here.height, by simp [isTame, first.1, List.all_append, first.2, next.2]⟩
          · exact others p (by simp [mem])
        · exact apart
      | _ => exact apart
  | _ => exact apart

theorem calm_joinStrings {h : Nat} {parts : List Shape} (calm : ∀ p ∈ parts, Calm h p) :
    ∀ p ∈ joinStrings parts, Calm h p := by
  induction parts with
  | nil => simp [joinStrings]
  | cons part rest ih =>
    rw [joinStrings_cons]
    exact calm_joinTo (calm part (by simp)) (ih fun p hp => calm p (by simp [hp]))

theorem listedAll_joinTo (part : Shape) (rest : List Shape) :
    listedAll (joinTo part rest) = part.listed + listedAll rest := by
  cases part with
  | literal a f noted =>
    cases rest with
    | nil => rfl
    | cons next rest =>
      cases next with
      | literal b g m =>
        rw [joinTo]
        split
        · simp [listedAll, listed, Nat.add_assoc]
        · rfl
      | _ => rfl
  | _ => rfl

theorem listedAll_joinStrings (parts : List Shape) :
    listedAll (joinStrings parts) = listedAll parts := by
  induction parts with
  | nil => rfl
  | cons part rest ih => rw [joinStrings_cons, listedAll_joinTo, ih]; rfl

theorem highest_le {h : Nat} {parts : List Shape} (le : ∀ p ∈ parts, p.height ≤ h) :
    highest parts ≤ h := by
  induction parts with
  | nil => exact Nat.zero_le _
  | cons part rest ih =>
    exact Nat.max_le.2 ⟨le part (by simp), ih fun p hp => le p (by simp [hp])⟩

theorem highest_flatMap_links {h : Nat} {parts : List Shape} (le : ∀ p ∈ parts, p.height ≤ h) :
    highest (parts.flatMap links) ≤ h := by
  induction parts with
  | nil => exact Nat.zero_le _
  | cons part rest ih =>
    rw [List.flatMap_cons, highest_append]
    exact Nat.max_le.2 ⟨Nat.le_trans (highest_links part) (le part (by simp)),
      ih fun p hp => le p (by simp [hp])⟩

theorem calm_sequence {h : Nat} {parts : List Shape} (calm : ∀ p ∈ parts, Calm h p) :
    Calm (h + 1) (sequence parts) ∧ (sequence parts).listed ≤ listedAll parts := by
  have joined := calm_joinStrings calm
  have listed := listedAll_joinStrings parts
  unfold sequence
  generalize joinStrings parts = ps at joined listed
  match ps with
  | [] => exact ⟨⟨Nat.le_add_left .., rfl⟩, Nat.zero_le _⟩
  | [part] => exact ⟨(joined part (by simp)).mono (Nat.le_succ h), by simp_all [listedAll]⟩
  | first :: second :: rest =>
    refine ⟨⟨?_, ?_⟩, Nat.zero_le _⟩
    · rw [height, Nat.add_comm]
      exact Nat.add_le_add_right (highest_flatMap_links fun p hp => (joined p hp).height) 1
    · refine areTame_iff.2 fun p hp => ?_
      obtain ⟨q, mem, hp⟩ := List.mem_flatMap.1 hp
      exact mem_links_tame (joined q mem).tame hp

end Shape

/-! ### Bounds -/

/-- A price of at most so many nodes, and as many code points. -/
structure Price.Within (n : Nat) (p : Price) : Prop where
  made : p.made ≤ n
  listed : p.listed ≤ n

theorem Price.Within.mono {n m : Nat} {p : Price} (h : p.Within n) (le : n ≤ m) : p.Within m :=
  ⟨Nat.le_trans h.made le, Nat.le_trans h.listed le⟩

theorem Price.Within.add {n m : Nat} {p q : Price} (h : p.Within n) (h' : q.Within m) :
    (p + q).Within (n + m) :=
  ⟨Nat.add_le_add h.made h'.made, Nat.add_le_add h.listed h'.listed⟩

theorem Price.within {a b n : Nat} (ha : a ≤ n) (hb : b ≤ n) : (⟨a, b⟩ : Price).Within n :=
  ⟨ha, hb⟩

/-- Tokens that add the expressions of a list, with a bound on the height of their shapes, on what
    these list, and on the price. -/
def Portion (tokens : List Token) (exprs : List Expr) (height listed cost : Nat) : Prop :=
  ∃ parts p, Adds tokens exprs parts p ∧ (∀ part ∈ parts, Shape.Calm height part) ∧
    Shape.listedAll parts ≤ listed ∧ p.Within cost

/-- Tokens that add one group, or one group repeated. -/
def Block (tokens : List Token) (e : Expr) (height cost : Nat) : Prop :=
  ∃ part p, Adds tokens [e] [part] p ∧ Shape.Opaque part ∧ Shape.Calm height part ∧ p.Within cost

/-- Tokens that are read as a whole pattern. -/
def Whole (tokens : List Token) (e : Expr) (height listed cost : Nat) : Prop :=
  ∃ shape p, Read tokens e shape p ∧ Shape.Calm height shape ∧ shape.listed ≤ listed ∧
    p.Within cost

section

variable {tokens : List Token} {e : Expr} {h l c : Nat}

theorem Portion.nil : Portion [] [] 0 0 0 :=
  ⟨[], _, .nil, by simp, Nat.le_refl _, ⟨Nat.le_refl _, Nat.le_refl _⟩⟩

theorem Portion.char (code : Nat) (plain : Net.isSurrogate code = false) :
    Portion [.char code] [.one (CaseFold.alike false code)] 1 1 1 :=
  ⟨_, _, .char code, by simpa using ⟨by simp [Shape.height], by simp [Shape.isTame, plain]⟩,
    Nat.le_refl _, ⟨Nat.le_refl _, Nat.le_refl _⟩⟩

theorem Portion.append {xs ys : List Token} {es fs : List Expr} {h' l' c' : Nat}
    (first : Portion xs es h l c) (second : Portion ys fs h' l' c') :
    Portion (xs ++ ys) (es ++ fs) (max h h') (l + l') (c + c') := by
  obtain ⟨ps, p, adds, calm, listed, within⟩ := first
  obtain ⟨qs, q, adds', calm', listed', within'⟩ := second
  refine ⟨ps ++ qs, p + q, adds.append adds', fun part mem => ?_, ?_, within.add within'⟩
  · obtain mem | mem := List.mem_append.1 mem
    · exact (calm part mem).mono (Nat.le_max_left ..)
    · exact (calm' part mem).mono (Nat.le_max_right ..)
  · simpa [Shape.listedAll] using Nat.add_le_add listed listed'

theorem Portion.mono {es : List Expr} {h' l' c' : Nat} (portion : Portion tokens es h l c)
    (height : h ≤ h') (listed : l ≤ l') (cost : c ≤ c') : Portion tokens es h' l' c' := by
  obtain ⟨parts, p, adds, calm, few, within⟩ := portion
  exact ⟨parts, p, adds, fun part mem => (calm part mem).mono height, Nat.le_trans few listed,
    within.mono cost⟩

theorem Block.mono {h' c' : Nat} (block : Block tokens e h c) (height : h ≤ h') (cost : c ≤ c') :
    Block tokens e h' c' := by
  obtain ⟨part, p, adds, sealed, calm, within⟩ := block
  exact ⟨part, p, adds, sealed, calm.mono height, within.mono cost⟩

theorem Block.portion (block : Block tokens e h c) : Portion tokens [e] h 0 c := by
  obtain ⟨part, p, adds, opaque_, calm, within⟩ := block
  exact ⟨[part], p, adds, by simpa using calm, by simp [Shape.listedAll, opaque_.listed], within⟩

/-- A portion that is all there is. -/
theorem Portion.whole {exprs : List Expr} (portion : Portion tokens exprs h l c)
    (fits : h < maxHeight) : Whole tokens (.concat exprs) (h + 1) l (c + (1 + 2 * l)) := by
  obtain ⟨parts, p, adds, calm, listed, within⟩ := portion
  obtain ⟨sequence, some_⟩ := Shape.calm_sequence calm
  have tame := Shape.isTame_asString (Shape.isTame_clean sequence.tame)
  refine ⟨_, _, adds.read (Nat.le_trans sequence.height fits)
    (Shape.isCounted_of_isTame sequence.tame), ⟨?_, tame⟩, ?_, within.add ⟨?_, ?_⟩⟩
  · rw [Shape.height_asString, Shape.height_clean]
    exact sequence.height
  · exact Nat.le_trans (Shape.listed_asString _) (Nat.le_trans (Shape.listed_clean _)
      (Nat.le_trans some_ listed))
  · simp only [Price.made_add]
    omega
  · have := Shape.listed_clean (Shape.sequence parts)
    simp only [Price.listed_add]
    omega

/-- A group that captures. -/
theorem Whole.captured (whole : Whole tokens e h l c) (name : Bytes) (fits : h < maxHeight) :
    Block (.capture name :: (tokens ++ [Token.close])) (.group 0 name e) (h + 1) (c + 1) := by
  obtain ⟨shape, p, read, calm, listed, within⟩ := whole
  refine ⟨.captured 0 shape, _, read.captured name (Nat.lt_of_le_of_lt calm.height fits),
    Shape.opaque_of_isOpaque rfl, ⟨?_, ?_⟩, ⟨?_, ?_⟩⟩
  · have := calm.height
    simp only [Shape.height]
    omega
  · exact calm.tame
  · have := within.made
    simp only [Price.made_add]
    omega
  · have := within.listed
    simp only [Price.listed_add]
    omega

/-- A group that captures, repeated. -/
theorem Whole.repeated (whole : Whole tokens e h l c) (name : Bytes) (fits : h + 1 < maxHeight)
    {count : Count} (plain : ∀ min max, count ≠ .times min max) (isLazy : Bool) (text : Bytes) :
    Block (Token.capture name :: (tokens ++ [Token.close]) ++ [Token.repeated count isLazy text])
      (.repeated count (!isLazy) (.group 0 name e)) (h + 2) (c + 2) := by
  obtain ⟨shape, p, read, calm, listed, within⟩ := whole
  have tame : (Shape.repeated count (!isLazy) (.captured 0 shape)).isTame = true := by
    cases count with
    | times min max => exact absurd rfl (plain min max)
    | _ => exact calm.tame
  have sealed : (Shape.repeated count (!isLazy) (.captured 0 shape)).isOpaque = true := by
    cases count with
    | times min max => exact absurd rfl (plain min max)
    | _ => rfl
  have := calm.height
  refine ⟨_, _, read.repeated name (by omega) plain isLazy text,
    Shape.opaque_of_isOpaque sealed, ⟨?_, tame⟩, ⟨?_, ?_⟩⟩
  · simp only [Shape.height]
    omega
  · have := within.made
    simp only [Price.made_add]
    omega
  · have := within.listed
    simp only [Price.listed_add]
    omega

/-- A group that does not capture. -/
theorem Whole.enclosed (whole : Whole tokens e h l c) (fits : h ≤ maxHeight) :
    Portion (.enclose [] :: (tokens ++ [Token.close])) [e] h l (c + (1 + l)) := by
  obtain ⟨shape, p, read, calm, listed, within⟩ := whole
  have calm' : Shape.Calm h (shape.asString {}) :=
    ⟨by rw [Shape.height_asString]; exact calm.height, Shape.isTame_asString calm.tame⟩
  refine ⟨_, _, read.enclosed (Shape.isCounted_of_isTame calm.tame)
    (Nat.le_trans calm.height fits), by simpa using calm', ?_, ⟨?_, ?_⟩⟩
  · simpa [Shape.listedAll] using Nat.le_trans (Shape.listed_asString shape) listed
  · have := within.made
    simp only [Price.made_add]
    omega
  · have := within.listed
    simp only [Price.listed_add]
    omega

theorem sequence_single (part : Shape) : Shape.sequence [part] = part := by
  cases part <;> rfl

end

/-! ### Alternatives -/

/-- Portions with bars between them. -/
def barred : List (List Token) → List Token
  | [] => []
  | tokens :: rest => tokens ++ if rest.isEmpty then [] else .bar :: barred rest

/-- An alternative: its tokens, what it denotes, and its price. -/
structure Alternative where
  tokens : List Token
  expr : Expr
  cost : Nat

/-- The price of alternatives. -/
def Alternative.total (alternatives : List Alternative) : Nat :=
  (alternatives.map fun a => a.cost + 2).sum

theorem also_opaques {part : Shape} (h : Shape.Opaque part) (choices : List Shape) :
    part.also choices = part :: choices := by
  cases choices with
  | nil => rfl
  | cons last before =>
    rw [Shape.also, h.oneOf?]
    cases last.oneOf? <;> rfl

/-- A choice between opaque shapes, the last of which stands first. -/
theorem choose_reverse {choices : List Shape} (sealed : ∀ part ∈ choices, Shape.Opaque part)
    (several : 2 ≤ choices.length) (n : Nat) :
    (Shape.choose (n + 1) (choices.map Shape.clean).reverse).run {} =
      (.alt choices.reverse none, { made := 1 }) := by
  have clean : choices.map Shape.clean = choices := by
    conv_rhs => rw [← List.map_id choices]
    exact List.map_congr_left fun part mem => (sealed part mem).clean
  rw [clean]
  have length : 2 ≤ choices.reverse.length := by simpa using several
  have all : ∀ part ∈ choices.reverse, Shape.Opaque part := fun part mem =>
    sealed part (List.mem_reverse.1 mem)
  match h : choices.reverse with
  | [] => simp [h] at length
  | [_] => simp [h] at length
  | first :: second :: rest => exact Shape.choose_opaques (h ▸ all) n

/-- An alternative that is the last of several opaque ones. -/
theorem finish_opaques {s : Sketch} {h : Nat} (fits : h < maxHeight) (flags : s.flags = {})
    {part : Shape} (parts : s.top.parts = [part])
    (sealed : ∀ p ∈ part :: s.top.choices, Shape.Opaque p ∧ Shape.Calm h p)
    (several : s.top.choices ≠ []) :
    s.finish = some (.choice (.concat s.top.exprs.reverse :: s.top.finished).reverse,
        .alt (part :: s.top.choices).reverse none) ∧
      s.finishPrice = some ⟨2, 0⟩ := by
  obtain ⟨here, calm⟩ := sealed part (by simp)
  have body : s.body = part := by simp [Sketch.body, parts, sequence_single]
  have length : 2 ≤ (part :: s.top.choices).length := by
    have := List.length_pos_iff.2 several
    simp only [List.length_cons]
    omega
  have chosen := choose_reverse (fun p mem => (sealed p mem).1) length
  have select : Shape.select {} (part :: s.top.choices) =
      .alt (part :: s.top.choices).reverse none := by
    unfold Shape.select
    simp only [chosen, Shape.asString]
  have highest : Shape.highest (part :: s.top.choices).reverse ≤ h :=
    Shape.highest_le fun p mem => (sealed p (List.mem_reverse.1 mem)).2.height
  have low := Nat.le_trans calm.height (Nat.le_of_lt fits)
  constructor
  · rw [Sketch.finish_eq (by rwa [body]), body, also_opaques here, flags, select]
    rw [body, also_opaques here, flags, select, Shape.height]
    omega
  · rw [Sketch.finishPrice_eq (by rwa [body]) (by rw [body]; exact here.isCounted) (q := ⟨1, 0⟩),
      body, here.listed]
    · rfl
    · rw [body, also_opaques here, flags]
      unfold Sketch.choicePrice
      simp only [chosen, Shape.asString]
      exact if_pos ⟨trivial, rfl⟩

/-- Alternatives after others. Each is put together with those before it, which `s` holds. -/
theorem run_barred {h : Nat} (fits : h < maxHeight) : ∀ (alternatives : List Alternative),
    (∀ a ∈ alternatives, Block a.tokens a.expr h a.cost) → alternatives ≠ [] → ∀ s : Sketch,
    s.flags = {} → s.outer = [] → s.top.exprs = [] → s.top.parts = [] →
    (∀ p ∈ s.top.choices, Shape.Opaque p ∧ Shape.Calm h p) →
    2 ≤ s.top.choices.length + alternatives.length →
    ∃ t p parts, s.run (barred (alternatives.map Alternative.tokens)) = some t ∧ t.outer = [] ∧
      s.bill (barred (alternatives.map Alternative.tokens)) = some p ∧
      p.Within (Alternative.total alternatives) ∧
      t.finish = some (.choice (s.top.finished.reverse ++ alternatives.map Alternative.expr),
        .alt parts none) ∧
      (∀ p ∈ parts, Shape.Calm h p) ∧ t.finishPrice = some ⟨2, 0⟩
  | [], _, nonempty, _, _, _, _, _, _, _ => absurd rfl nonempty
  | a :: rest, blocks, _, s, flags, outer, exprs, parts, choices, several => by
      obtain ⟨part, p, adds, sealed, calm, within⟩ := blocks a (by simp)
      obtain ⟨last, run, bill⟩ := adds.run s flags
      generalize state : s.extended [a.expr] [part] last = t at run
      have t_flags : t.flags = {} := by rw [← state]; exact flags
      have t_parts : t.top.parts = [part] := by simp [← state, Sketch.extended, parts]
      have t_exprs : t.top.exprs = [a.expr] := by simp [← state, Sketch.extended, exprs]
      have t_choices : t.top.choices = s.top.choices := by rw [← state]; rfl
      have t_finished : t.top.finished = s.top.finished := by rw [← state]; rfl
      have t_outer : t.outer = [] := by rw [← state]; exact outer
      have all : ∀ p ∈ part :: t.top.choices, Shape.Opaque p ∧ Shape.Calm h p := by
        rw [t_choices]
        simpa using ⟨⟨sealed, calm⟩, choices⟩
      cases rest with
      | nil =>
        have before : t.top.choices ≠ [] := by
          rw [t_choices]
          rintro none
          simp [none] at several
        obtain ⟨finish, price⟩ := finish_opaques fits t_flags t_parts all before
        rw [t_exprs, t_finished] at finish
        have total : Alternative.total [a] = a.cost + 2 := rfl
        refine ⟨t, p, (part :: t.top.choices).reverse, by simpa [barred] using run, t_outer,
          by simpa [barred] using bill, within.mono (by omega), ?_,
          fun p mem => (all p (List.mem_reverse.1 mem)).2, price⟩
        simpa [Expr.concat] using finish
      | cons b rest =>
        have body : t.body = part := by simp [Sketch.body, t_parts, sequence_single]
        have low := Nat.le_trans calm.height (Nat.le_of_lt fits)
        have ended : t.endPrice = some ⟨1, 0⟩ := by
          rw [Sketch.endPrice, body, sealed.isCounted, sealed.listed]
          rfl
        obtain ⟨u, step, u_eq⟩ : ∃ u, t.step .bar = some u ∧ u = { t with
            top := { t.top with
              finished := .concat t.top.exprs.reverse :: t.top.finished
              exprs := []
              choices := part :: t.top.choices
              parts := [] }
            last := [] } := by
          refine ⟨_, if_pos (by rwa [body]), ?_⟩
          rw [body, also_opaques sealed]
        have price : t.price .bar = some ⟨2, 0⟩ := by
          rw [Sketch.price, ended]
          rfl
        obtain ⟨v, q, parts', run', v_outer, bill', within', finish, calm', finishPrice⟩ :=
          run_barred fits (b :: rest) (fun a mem => blocks a (by simp [mem])) (by simp) u
            (by rw [u_eq]; exact t_flags) (by rw [u_eq]; exact t_outer) (by rw [u_eq])
            (by rw [u_eq]) (by rw [u_eq]; exact all)
            (by
              rw [u_eq]
              simp only [List.length_cons, t_choices] at several ⊢
              omega)
        have cut : barred ((a :: b :: rest).map Alternative.tokens) =
            a.tokens ++ (.bar :: barred ((b :: rest).map Alternative.tokens)) := rfl
        have later : t.bill (.bar :: barred ((b :: rest).map Alternative.tokens)) =
            some (⟨2, 0⟩ + q) := by
          simp only [Sketch.bill, price, step, Option.bind_eq_bind, Option.bind_some, bill',
            Option.pure_def]
        refine ⟨v, p + (⟨2, 0⟩ + q), parts', ?_, v_outer, ?_, ?_, ?_, calm', finishPrice⟩
        · rw [cut, Sketch.run_append, run, Option.bind_some, Sketch.run, step]
          exact run'
        · rw [cut]
          exact Sketch.bill_append run bill later
        · have total : Alternative.total (a :: b :: rest) =
              a.cost + (2 + Alternative.total (b :: rest)) := by
            simp [Alternative.total, Nat.add_assoc]
          rw [total]
          exact within.add ((Price.within (Nat.le_refl _) (Nat.zero_le _)).add within')
        · rw [finish, u_eq]
          simp [t_exprs, t_finished, Expr.concat]

/-- A choice between groups. -/
theorem Whole.choice {h : Nat} (fits : h < maxHeight) {alternatives : List Alternative}
    (blocks : ∀ a ∈ alternatives, Block a.tokens a.expr h a.cost)
    (several : 2 ≤ alternatives.length) :
    Whole (barred (alternatives.map Alternative.tokens))
      (.choice (alternatives.map Alternative.expr)) (h + 1) 0
      (Alternative.total alternatives + 2) := by
  have nonempty : alternatives ≠ [] := by
    rintro rfl
    simp at several
  obtain ⟨t, p, parts, run, outer, bill, within, finish, calm, price⟩ :=
    run_barred fits alternatives blocks nonempty Sketch.start rfl rfl rfl rfl
      (by simp [Sketch.start]) (by simpa [Sketch.start] using several)
  refine ⟨.alt parts none, p + ⟨2, 0⟩, ⟨?_, ?_⟩, ⟨?_, ?_⟩, Nat.le_refl _,
    within.add (Price.within (Nat.le_refl _) (Nat.zero_le _))⟩
  · rw [Sketch.read, run]
    simpa [outer, Sketch.start] using finish
  · rw [Sketch.readPrice, bill, run]
    simp [price]
  · rw [Shape.height, Nat.add_comm]
    exact Nat.add_le_add_right (Shape.highest_le fun p mem => (calm p mem).height) 1
  · exact Shape.areTame_iff.2 fun p mem => (calm p mem).tame

/-! ### Small patterns -/

/-- Reads tokens and compares the outcome and the bounds. -/
def Whole.check (tokens : List Token) (e : Expr) (height listed cost : Nat) : Bool :=
  match Sketch.read tokens, Sketch.readPrice tokens with
  | some (e', shape), some p =>
      e' == e && decide (shape.height ≤ height) && shape.isTame && decide (shape.listed ≤ listed) &&
        decide (p.made ≤ cost) && decide (p.listed ≤ cost)
  | _, _ => false

theorem Whole.of_check {tokens : List Token} {e : Expr} {h l c : Nat}
    (checked : Whole.check tokens e h l c = true) : Whole tokens e h l c := by
  unfold Whole.check at checked
  split at checked
  · rename_i e' shape p read price
    simp only [Bool.and_eq_true, beq_iff_eq, decide_eq_true_eq] at checked
    obtain ⟨⟨⟨⟨⟨rfl, height⟩, tame⟩, listed⟩, made⟩, noted⟩ := checked
    exact ⟨shape, p, ⟨read, price⟩, ⟨height, tame⟩, listed, ⟨made, noted⟩⟩
  · cases checked

end Pattern

end Rulebook

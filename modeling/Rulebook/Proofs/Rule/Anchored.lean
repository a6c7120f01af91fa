import Rulebook.Proofs.Rule.Translation

/-!
# Compiled rules

What the two compiled patterns of a rule search for: the expression of the rule, and the same between
the start and the end of the text (`Rule.Sound.compiled`). Both are found by their programs, unless
the rule is a pattern that asks for a surrogate (`Rule.Sound.lead_none`).
-/

namespace Rulebook

open Pattern
open Token (scan Clean)

namespace Pattern.Expr

/-- An expression between the start and the end of the text. -/
def anchored (e : Expr) : Expr := .concat [.test .beginText, e, .test .endText]

theorem numbered_anchored (e : Expr) : e.anchored.numbered = e.numbered.anchored := rfl

theorem names_anchored (e : Expr) : e.anchored.names = e.names := by
  simp [anchored, concat, names]

theorem names_numbered (e : Expr) : e.numbered.names = e.names := names_numberFrom e 1

end Pattern.Expr

namespace Rule

/-! ### Reading between anchors -/

/-- What is read between anchors is what is read without them. -/
theorem of_read_anchored {tokens : List Token} {e : Expr} {shape : Shape} {parts : Expr × Shape}
    (h : Sketch.readWith {} tokens = some (e, shape))
    (whole : Sketch.readWith {} (anchored tokens) = some parts) :
    parts = (e.anchored, .cat (.test .beginText :: ((shape.asString {}).links ++ [Shape.test .endText]))
      none) := by
  have balanced := Sketch.balanced_of_readWith h
  have cut : anchored tokens =
      .caret :: .enclose [] :: ((tokens ++ [Token.close]) ++ [Token.dollar]) := by
    simp [anchored]
  obtain ⟨s, run⟩ := run_of_readWith whole
  rw [Sketch.readWith, run] at whole
  simp only at whole
  rw [cut, Sketch.run] at run
  split at run
  · cases run
  · rename_i first caret
    have begun := Sketch.eq_of_within (show Sketch.push (.test .beginText) (.test .beginText)
      (.begin {}) = some first from caret)
    have enclose : first.step (.enclose []) = some (first.enter none {}) := by rw [begun]; rfl
    rw [Sketch.run, enclose] at run
    simp only at run
    rw [Sketch.run_append, Sketch.run_enter balanced, h, Option.bind_eq_some_iff] at run
    obtain ⟨second, group, run⟩ := run
    have closed := Sketch.eq_of_within group
    rw [Sketch.run] at run
    split at run
    · cases run
    · rename_i third dollar
      cases run
      have ended := Sketch.eq_of_within (show Sketch.push (.test .endText) (.test .endText) second =
        some s by rw [← dollar, closed, begun]; rfl)
      have outer : s.outer.isEmpty = true := by rw [ended, closed, begun]; rfl
      rw [if_pos outer, Sketch.finish] at whole
      split at whole
      · cases whole
      · rename_i next finished
        rw [Sketch.eq_of_within whole, Sketch.eq_of_within finished, Sketch.body, ended, closed, begun]
        simp only [Sketch.begin, List.reverse_cons, List.reverse_nil, List.nil_append,
          List.cons_append, Shape.also, Expr.choice, Prod.mk.injEq]
        refine ⟨rfl, ?_⟩
        rw [show (Shape.test Assertion.beginText).asString {} = .test .beginText from rfl,
          show (Shape.test Assertion.endText).asString {} = .test .endText from rfl,
          sequence_between]
        rfl

/-! ### Shapes of rules -/

/-- A repetition of a group is opaque as the group is. -/
theorem isOpaque_repetition {s s' : Sketch} {how : Combinator} {index : Nat} {body : Shape}
    (last : s.top.parts = [.captured index body]) (h : s.run (repetition how) = some s') :
    ∃ part, part.isOpaque = true ∧ s'.top.parts = [part] ∧ s'.top.choices = s.top.choices := by
  have once {count : Count} (plain : ∀ min max, count ≠ .times min max) {marked : Bool}
      {text : Bytes} (h : s.run [.repeated count marked text] = some s') :
      ∃ part, part.isOpaque = true ∧ s'.top.parts = [part] ∧ s'.top.choices = s.top.choices := by
    simp only [Sketch.run, Sketch.step] at h
    split at h
    · cases h
    · rename_i next step
      cases h
      unfold Sketch.repeatLast at step
      rw [last] at step
      split at step
      · cases step
      · split at step
        · rename_i same
          cases same
          dsimp only at step
          split at step
          · rw [Sketch.eq_of_within step]
            refine ⟨_, ?_, rfl, rfl⟩
            cases count with
            | times min max => exact absurd rfl (plain min max)
            | _ => rfl
          · cases step
        · cases step
  cases how with
  | seq =>
    cases h
    exact ⟨_, rfl, last, rfl⟩
  | oneOf =>
    cases h
    exact ⟨_, rfl, last, rfl⟩
  | optional => exact once (by intro _ _ same; cases same) h
  | zeroOrMore isLazy => exact once (by intro _ _ same; cases same) h
  | oneOrMore isLazy => exact once (by intro _ _ same; cases same) h

/-- The shape of a combination is a group, or a repetition of one. -/
theorem isOpaque_of_readWith {tag : Nat} {how : Combinator} {entries : List (Entry Rule)}
    {parts : Expr × Shape} (even : ∀ e ∈ reach entries, Even e.rule)
    (h : Sketch.readWith {} (tokens true (combine tag how entries)) = some parts) :
    parts.2.isOpaque = true := by
  obtain ⟨s, run⟩ := run_of_readWith h
  rw [Sketch.readWith, run] at h
  have opened : (Sketch.begin {}).step (.capture []) = some ((Sketch.begin {}).enter (some []) {}) :=
    rfl
  rw [tokens_combine, Sketch.run, opened] at run
  simp only at run
  rw [Sketch.run_append, Sketch.run_enter (balanced_inner even how), Option.bind_eq_some_iff] at run
  obtain ⟨t, group, run⟩ := run
  split at group
  · cases group
  · rename_i expr shape read
    have closed := Sketch.eq_of_within group
    obtain ⟨part, isOpaque, single, choices⟩ := isOpaque_repetition (by rw [closed]; rfl) run
    have sealed := Shape.opaque_of_isOpaque isOpaque
    have choices : s.top.choices = [] := by rw [choices, closed]; rfl
    simp only at h
    split at h
    · unfold Sketch.finish at h
      split at h
      · cases h
      · rename_i next finished
        have body : s.body = part := by
          rw [Sketch.body, single, List.reverse_singleton, sequence_single]
        have select (flags : Flags) : Shape.select flags [part] = part.clean.asString flags := rfl
        rw [Sketch.eq_of_within h, Sketch.eq_of_within finished]
        simp only [body, choices, Shape.also, select, sealed.clean, sealed.asString]
        exact isOpaque
    · cases h

theorem not_isSurrogate (c : Scalar) : Net.isSurrogate c.code = false := by
  have valid := c.char.valid
  simp only [UInt32.isValidChar, Nat.isValidChar] at valid
  have outside : ¬ (0xD800 ≤ c.char.val.toNat ∧ c.char.val.toNat ≤ 0xDFFF) := by omega
  unfold Net.isSurrogate Scalar.code Char.toNat
  rw [Bool.and_eq_false_iff, decide_eq_false_iff_not, decide_eq_false_iff_not]
  omega

/-- The characters of a text are parts without surrogates. -/
theorem portion_text (literal : Bytes) :
    Portion (textTokens literal) (textExprs literal) 1 literal.scalars.length
      literal.scalars.length := by
  unfold textTokens textExprs
  induction literal.scalars with
  | nil => exact Portion.nil.mono (Nat.zero_le 1) (Nat.le_refl 0) (Nat.le_refl 0)
  | cons c rest ih =>
    refine ((Portion.char c.code (not_isSurrogate c)).append ih).mono (Nat.le_refl 1) ?_ ?_
    · rw [List.length_cons, Nat.add_comm]
    · rw [List.length_cons, Nat.add_comm]

/-- The shape of a text has no surrogate. -/
theorem isTame_of_readWith {literal : Bytes} {parts : Expr × Shape}
    (h : Sketch.readWith {} (textTokens literal) = some parts) : parts.2.isTame = true := by
  obtain ⟨shape, p, read, calm, -⟩ := (portion_text literal).whole (by decide)
  cases h.symm.trans read.read
  exact calm.tame

/-! ### Compiled patterns -/

theorem Firm.read_tokens {r : Rule} (firm : Firm r) {piece : Piece}
    (parsed : Piece.parse r.namedPattern = .ok piece) :
    ∃ e shape, Sketch.readWith {} (tokens true r) = some (e, shape) ∧ e = r.expr ∧
      Shape.Like piece.shape shape := by
  have follows := Piece.parse_follows (firm.scan_namedPattern parsed)
  rw [parsed] at follows
  obtain ⟨parts, read, -, like⟩ := follows.sound
  exact ⟨parts.1, parts.2, read, (expr_of_readWith (firm.even_of_parse parsed) read).2, like⟩

/-- What the compiled patterns of a rule search for. -/
structure Searches (r : Rule) (c : Compiled) : Prop where
  read : r.IsRead
  search : c.search.program = .ofExpr r.expr.numbered
  names : c.search.names = r.expr.names
  whole : c.whole.program = .ofExpr r.expr.numbered.anchored
  whole_names : c.whole.names = r.expr.names
  unique : repeated? [] r.expr.names = none

theorem Firm.anchored_parse {r : Rule} (firm : Firm r) {piece piece' : Piece}
    (parsed : Piece.parse r.namedPattern = .ok piece)
    (parsed' : Piece.parse (anchor r.namedPattern) = .ok piece') :
    piece'.expr = r.expr.numbered.anchored := by
  obtain ⟨e, shape, read, same, -⟩ := firm.read_tokens parsed
  obtain ⟨parts, whole, expr⟩ := read_of_parse (firm.scan_anchor parsed') parsed'
  rw [← Piece.numbered_parse parsed', ← expr, of_read_anchored read whole, same]
  rfl

theorem Firm.searches {r : Rule} (firm : Firm r) {c : Compiled} (h : r.compile = .ok c) :
    Searches r c := by
  obtain ⟨piece, parsed, names, program, -, unique⟩ := Regex.of_ofPattern (compile_ok h).1
  obtain ⟨piece', parsed', names', program', -⟩ := Regex.of_ofPattern (compile_ok h).2
  obtain ⟨read, expr⟩ := firm.expr_parse parsed
  have expr' := firm.anchored_parse parsed parsed'
  rw [expr, Expr.names_numbered] at names unique
  rw [expr', Expr.names_anchored, Expr.names_numbered] at names'
  exact ⟨read, expr ▸ program, names, expr' ▸ program', names', unique⟩

/-- The compiled patterns of a rule are found by their programs, unless the rule is a pattern. -/
theorem Firm.lead_none {r : Rule} (firm : Firm r) (kind : r.kind ≠ .regex) {c : Compiled}
    (h : r.compile = .ok c) : c.search.lead = none ∧ c.whole.lead = none := by
  obtain ⟨piece, parsed, -, -, lead, -⟩ := Regex.of_ofPattern (compile_ok h).1
  obtain ⟨piece', parsed', -, -, lead', -⟩ := Regex.of_ofPattern (compile_ok h).2
  obtain ⟨e, shape, read, -, like⟩ := firm.read_tokens parsed
  have follows := Piece.parse_follows (firm.scan_anchor parsed')
  rw [parsed'] at follows
  obtain ⟨parts, whole, -, like'⟩ := follows.sound
  rw [of_read_anchored read whole] at like'
  rw [lead, lead']
  cases r with
  | regex => exact absurd rfl kind
  | text tag literal =>
    have tame : shape.isTame = true := isTame_of_readWith read
    refine ⟨Lead.ofShape?_eq_none (like.isTame.trans tame), Lead.ofShape?_eq_none ?_⟩
    rw [like'.isTame, Shape.isTame, Shape.areTame_iff]
    intro part mem
    obtain rfl | mem := List.mem_cons.1 mem
    · rfl
    · obtain mem | mem := List.mem_append.1 mem
      · exact Shape.mem_links_tame (Shape.isTame_asString tame) mem
      · cases List.mem_singleton.1 mem
        rfl
  | combine tag how entries =>
    have sealed := isOpaque_of_readWith (firm.even_of_parse parsed) read
    have group := Shape.opaque_of_isOpaque sealed
    rw [group.asString, group.links] at like'
    exact ⟨Lead.ofShape?_of_isOpaque (like.isOpaque.trans sealed),
      Lead.ofShape?_of_between like' sealed⟩

theorem Sound.searches {r : Rule} (sound : Sound r) {c : Compiled} (h : r.compile = .ok c) :
    Searches r c := sound.firm.searches h

theorem Sound.lead_none {r : Rule} (sound : Sound r) (kind : r.kind ≠ .regex) {c : Compiled}
    (h : r.compile = .ok c) : c.search.lead = none ∧ c.whole.lead = none :=
  sound.firm.lead_none kind h

end Rule

end Rulebook

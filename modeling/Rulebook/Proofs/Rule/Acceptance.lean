import Mathlib.Tactic.Common
import Rulebook.Proofs.Pattern.Reading
import Rulebook.Proofs.Rule.Tokens
import Rulebook.Rule.Build
import Rulebook.Rule.Compile

/-!
# Acceptance of entries

The matcher accepts a rule if it accepts the rule's pattern. What is accepted of a rule is accepted
of its named entries, because their patterns stand inside the pattern of the rule, and their tokens
among its tokens: a group that is balanced, nests within the limit and repeats no name stays so by
itself. Only the limit on the size is not inherited; `Rule.Passes` leaves it open.
-/

namespace Rulebook

open Pattern

namespace Rule

open Token (scan next scan_cons paren Clean Quoting)

/-- True if the matcher accepts a rule. -/
def Accepted (r : Rule) : Prop := ∃ c, r.compile = .ok c

/-- True if the matcher refuses a rule because one of its two patterns is too large. -/
def TooLarge (r : Rule) : Prop :=
  ∃ p ∈ [r.namedPattern, anchor r.namedPattern],
    r.compile = .error (.rejected p (.fault ⟨.tooLarge, p⟩))

theorem compile_ok {r : Rule} {c : Compiled} (h : r.compile = .ok c) :
    Regex.ofPattern r.namedPattern = .ok c.search ∧
      Regex.ofPattern (anchor r.namedPattern) = .ok c.whole := by
  unfold compile at h
  split at h
  · cases h
  · split at h
    · cases h
    · cases h
      exact ⟨‹_›, ‹_›⟩

/-! ### Reading accepted patterns -/

/-- What the tokens of a pattern need so that nothing but its size can be held against it. -/
structure Readable (tokens : List Token) : Prop where
  read : ∃ parts, Sketch.read tokens = some parts
  names : repeated? [] (Token.names tokens) = none

theorem readable_of_ofPattern {source : Bytes} {regex : Regex}
    (h : Regex.ofPattern source = .ok regex) :
    ∃ tokens : List Token, scan source.scalars = tokens.map .ok ∧ Readable tokens := by
  unfold Regex.ofPattern at h
  split at h
  · cases h
  · rename_i e shape parsed
    split at h
    · cases h
    · rename_i unique
      obtain ⟨tokens, scanned⟩ := Piece.scan_of_parse parsed
      have follows := Piece.parse_follows scanned
      rw [parsed] at follows
      obtain ⟨parts, read, drawn⟩ := follows.sound
      have names : e.names = Token.names tokens := by
        rw [← Expr.names_unnumbered, drawn.1]
        exact Sketch.names_readWith read
      exact ⟨tokens, scanned, ⟨parts, read⟩, names ▸ unique⟩

theorem ofPattern_of_readable {source : Bytes} {tokens : List Token}
    (scanned : scan source.scalars = tokens.map .ok) (h : Readable tokens) :
    (∃ regex, Regex.ofPattern source = .ok regex) ∨
      Regex.ofPattern source = .error (.rejected source (.fault ⟨.tooLarge, source⟩)) := by
  obtain ⟨⟨parts, read⟩, unique⟩ := h
  have follows := Piece.parse_follows scanned
  rw [read] at follows
  unfold Regex.ofPattern
  obtain ⟨⟨e, shape⟩, parsed, drawn⟩ | tooLarge := follows.complete
  · have names : e.names = Token.names tokens := by
      rw [← Expr.names_unnumbered, drawn.1]
      exact Sketch.names_readWith read
    left
    rw [parsed]
    simp only
    rw [names, unique]
    exact ⟨_, rfl⟩
  · right
    rw [tooLarge]

/-- The tokens of a pattern between anchors. -/
def anchored (tokens : List Token) : List Token :=
  .caret :: .enclose [] :: (tokens ++ [.close, .dollar])

theorem scan_anchor (p : Bytes) :
    scan (anchor p).scalars =
      .ok .caret :: .ok (.enclose []) :: scan (p.scalars ++ [paren, Scalar.ascii 36]) := by
  have marks : ("^(?:" : Bytes) = [94, 40, 63, 58] ∧ (")$" : Bytes) = [41, 36] := by
    decide
  have cut : (anchor p).scalars = Scalar.ascii 94 :: Scalar.ascii 40 :: Scalar.ascii 63 ::
      Scalar.ascii 58 :: (p.scalars ++ [paren, Scalar.ascii 36]) := by
    rw [anchor, marks.1, marks.2, List.append_assoc,
      Bytes.scalars_ascii_append (by simp) (p ++ [41, 36]),
      Bytes.scalars_append_ascii p (by simp)]
    rfl
  have caret (s : List Scalar) : scan (Scalar.ascii 94 :: s) = .ok .caret :: scan s := by
    rw [scan_cons]
    rfl
  rw [cut, caret, scan_cons, next_enclose]
  rfl

/-! ### Leaves -/

theorem scan_paren (s : List Scalar) : scan (paren :: s) = .ok .close :: scan s := by
  rw [scan_cons]
  rfl

theorem scan_dollar : scan [Scalar.ascii 36] = [.ok .dollar] := by
  have none_left : (next (Scalar.ascii 36) []).2 = [] := rfl
  rw [scan_cons, none_left, Token.scan_nil]
  rfl

/-- What follows from the acceptance of a leaf. -/
structure Leaf (source : Bytes) (tokens : List Token) : Prop where
  scanned : scan source.scalars = tokens.map .ok
  readable : Readable tokens
  closed : ¬ Quoting source.scalars
  fresh : source.head? ≠ some 63

theorem balanced_of_readable {tokens : List Token} (h : Readable tokens) :
    Token.Balanced tokens := by
  obtain ⟨parts, read⟩ := h.read
  exact Sketch.balanced_of_readWith read

/-- A leaf that is accepted does not end inside quoted text, because such a text would take in the
    parenthesis between the leaf and the anchor. -/
theorem not_quoting_of_anchored {source : Bytes} {tokens inner : List Token}
    (scanned : scan source.scalars = tokens.map .ok) (readable : Readable tokens)
    (scanned' : scan (anchor source).scalars = inner.map .ok) (readable' : Readable inner) :
    ¬ Quoting source.scalars := by
  intro quoting
  rw [scan_anchor] at scanned'
  have chars : Token.quotedChars [paren, Scalar.ascii 36] =
      [Token.char 41, Token.char 36].map .ok := rfl
  obtain same | unclean := Token.scan_quoting quoting scanned (by rfl) chars
  · rw [same] at scanned'
    have inner_eq : inner = .caret :: .enclose [] :: (tokens ++ [Token.char 41, Token.char 36]) := by
      refine (List.map_inj_right fun _ _ => Except.ok.inj).1 (scanned'.symm.trans ?_)
      rfl
    have levels := balanced_of_readable readable' 0
    rw [inner_eq] at levels
    simp [Token.levels, Token.levels_append, balanced_of_readable readable 1] at levels
  · refine unclean ?_
    cases inner with
    | nil => simp at scanned'
    | cons a inner =>
      cases inner with
      | nil => simp at scanned'
      | cons b inner =>
        simp only [List.map_cons, List.cons.injEq] at scanned'
        exact ⟨inner, scanned'.2.2⟩

/-- A pattern that starts with a question mark repeats nothing. -/
theorem head?_of_readable {source : Bytes} {tokens : List Token}
    (scanned : scan source.scalars = tokens.map .ok) (readable : Readable tokens) :
    source.head? ≠ some 63 := by
  intro starts
  obtain ⟨parts, read⟩ := readable.read
  cases source with
  | nil => simp at starts
  | cons b rest =>
    obtain rfl : b = 63 := by simpa using starts
    rw [Bytes.scalars_cons_ascii (by decide), scan_cons] at scanned
    have first : ∃ marked text, (next (Scalar.ascii 63) (Bytes.scalars rest)).1 =
        [.ok (.repeated .opt marked text)] := by
      have : next (Scalar.ascii 63) (Bytes.scalars rest) = Token.alone
          (.ok (Token.repetition .opt [Scalar.ascii 63] (Bytes.scalars rest))) := rfl
      rw [this]
      fun_cases Token.repetition .opt [Scalar.ascii 63] (Bytes.scalars rest) <;>
        exact ⟨_, _, rfl⟩
    obtain ⟨marked, text, first⟩ := first
    rw [first] at scanned
    cases tokens with
    | nil => simp at scanned
    | cons token tokens =>
      simp only [List.map_cons, List.cons_append, List.cons.injEq, Except.ok.injEq] at scanned
      rw [← scanned.1] at read
      simp [Sketch.read, Sketch.run, Sketch.step, Sketch.repeatLast, Sketch.start] at read

theorem leaf_of_accepted {tag : Nat} {source : Bytes} (h : Accepted (regex tag source)) :
    Leaf source (leafTokens source) := by
  obtain ⟨c, compiled⟩ := h
  unfold compile at compiled
  split at compiled
  · cases compiled
  · rename_i search found
    split at compiled
    · cases compiled
    · rename_i whole found'
      obtain ⟨tokens, scanned, readable⟩ := readable_of_ofPattern found
      obtain ⟨inner, scanned', readable'⟩ := readable_of_ofPattern found'
      have same : leafTokens source = tokens := by
        rw [leafTokens]
        exact (congrArg (List.filterMap Except.toOption) scanned).trans (by
          simp [List.filterMap_map, Function.comp_def, Except.toOption])
      rw [same]
      exact ⟨scanned, readable, not_quoting_of_anchored scanned readable scanned' readable',
        head?_of_readable scanned readable⟩

/-! ### Patterns of entries -/

theorem not_clean_stray {c : Scalar} (stray : c.isStray = true) (s : List Scalar) :
    ¬ Clean (scan (c :: s)) := by
  have char : c.char = Scalar.replacement := by
    simp only [Scalar.isStray, Bool.and_eq_true, beq_iff_eq] at stray
    exact stray.1
  have refused : ∃ fault, (next c s).1 = [.error fault] := by
    unfold next
    split <;> rename_i h
    case h_13 => exact ⟨_, by rw [if_pos stray]; rfl⟩
    all_goals exact absurd (char.symm.trans h) (by decide)
  obtain ⟨fault, refused⟩ := refused
  rw [scan_cons, refused]
  exact Token.not_clean_error _ _

/-- The condition that the rest is scanned without a fault before `y`. -/
theorem lasting_clean {y : List Scalar} (fresh : Fresh y) :
    Lasting fun z => Clean (scan (z ++ y)) where
  take tokens s rest _ taken clean := by
    rw [taken y fresh, Clean.append_iff] at clean
    exact clean.2
  valid {c s} clean := by
    by_contra stray
    exact not_clean_stray (by simpa using stray) (s ++ y) clean

theorem Leaf.pasteable {source : Bytes} (leaf : Leaf source (leafTokens source))
    (y : List Scalar) : Pasteable (fun z => Clean (scan (z ++ y))) source where
  fresh := leaf.fresh
  stops k clean := by
    generalize k.scalars = k at clean ⊢
    obtain same | ⟨-, m, ⟨⟨k', rfl⟩, -⟩, unclean⟩ := Token.scan_stops leaf.scanned leaf.closed k
    · have same' : scan (source.scalars ++ paren :: k ++ y) =
          (leafTokens source).map .ok ++ scan (paren :: k ++ y) := by
        obtain same | ⟨-, m, ⟨⟨k', eq⟩, -⟩, unclean⟩ :=
          Token.scan_stops leaf.scanned leaf.closed (k ++ y)
        · simpa using same
        · refine absurd clean ?_
          have := unclean k'
          rw [List.cons_append, eq] at this
          simpa using this
      rw [same', Clean.append_iff] at clean
      exact ⟨same, clean.2⟩
    · exact absurd clean (by simpa using unclean (k' ++ y))

mutual

theorem reach_trans_rule : ∀ (r : Rule) {e d : Entry Rule}, e ∈ reach r.entries →
    d ∈ reach e.rule.entries → d ∈ reach r.entries
  | regex _ _, _, _, mem, _ => nomatch mem
  | text _ _, _, _, mem, _ => nomatch mem
  | combine _ _ es, _, _, mem, below => reach_trans es mem below

/-- What can be reached from an entry can be reached from where the entry can be reached. -/
theorem reach_trans : ∀ (es : List (Entry Rule)) {e d : Entry Rule}, e ∈ reach es →
    d ∈ reach e.rule.entries → d ∈ reach es
  | [], _, _, mem, _ => nomatch mem
  | ⟨name, r⟩ :: rest, e, d, mem, below => by
      rw [reach_cons, List.mem_cons, List.mem_append] at mem ⊢
      obtain rfl | mem | mem := mem
      · exact .inr (.inl below)
      · exact .inr (.inl (reach_trans_rule r mem below))
      · exact .inr (.inr (reach_trans rest mem below))

end

/-- A rule whose entries have valid names, and whose leaves are accepted. -/
structure Sound (r : Rule) : Prop where
  names : ∀ e ∈ reach r.entries, e.name = [] ∨ isValidName e.name = true
  leaf : ∀ tag source, r = regex tag source → Accepted r
  leaves : ∀ e ∈ reach r.entries, ∀ tag source, e.rule = regex tag source → Accepted e.rule

theorem Sound.entry {r : Rule} (sound : Sound r) {e : Entry Rule} (mem : e ∈ reach r.entries) :
    Sound e.rule where
  names d below := sound.names d (reach_trans_rule r mem below)
  leaf := sound.leaves e mem
  leaves d below := sound.leaves d (reach_trans_rule r mem below)

theorem Sound.scans {r : Rule} (sound : Sound r) (named : Bool) {y : List Scalar}
    (fresh : Fresh y) : Scans (fun z => Clean (scan (z ++ y))) named r := by
  refine scan_rule (lasting_clean fresh) named [] r ⟨.inl rfl, fun tag source eq => ?_⟩
    fun e mem => ⟨sound.names e mem, fun tag source eq => ?_⟩
  · have accepted := sound.leaf tag source eq
    rw [show r = regex tag source from eq] at accepted
    exact (leaf_of_accepted accepted).pasteable y
  · have accepted := sound.leaves e mem tag source eq
    rw [eq] at accepted
    exact (leaf_of_accepted accepted).pasteable y

/-- True of a rule that is no pattern leaf, so that its pattern can also stand at the end. -/
theorem mayFollow_nil {r : Rule} (h : r.kind ≠ .regex) : MayFollow [] r := by
  cases r with
  | regex tag source => exact absurd rfl h
  | text tag literal =>
    rintro a t ⟨⟩
  | combine tag how entries => simp [MayFollow]

/-- A pattern that is scanned without a fault inside a group is scanned to its tokens by itself, and
    also between anchors. -/
theorem scan_alone {named : Bool} {r : Rule} (combined : r.kind ≠ .regex)
    (scans : ∀ y, Fresh y → Scans (fun z => Clean (scan (z ++ y))) named r) {t : Bytes}
    (fresh : t.head? ≠ some 63) (clean : Clean (scan (assemble named r ++ 41 :: t).scalars)) :
    scan (assemble named r).scalars = (tokens named r).map .ok ∧
      scan (anchor (assemble named r)).scalars = (anchored (tokens named r)).map .ok := by
  have cut (k : Bytes) : (assemble named r ++ 41 :: k).scalars =
      (assemble named r).scalars ++ paren :: k.scalars := by
    rw [Bytes.scalars_append_ascii _ (by decide), Bytes.scalars_cons_ascii (by decide)]
    rfl
  have alone : scan (assemble named r).scalars = (tokens named r).map .ok := by
    have start : Fresh (paren :: t.scalars) := by
      simp only [Fresh, List.head?_cons, Option.map_some, Token.char_paren]
      decide
    have q : Clean (scan ((assemble named r ++ []).scalars ++ paren :: t.scalars)) := by
      rw [List.append_nil, ← cut]
      exact clean
    obtain ⟨scanned, -⟩ := scans _ start [] (mayFollow_nil combined) q
    simpa using scanned
  -- a quoted text that is left open would take in the parenthesis
  have closed : ¬ Quoting (assemble named r).scalars := by
    intro quoting
    have q : Clean (scan ((assemble named r ++ [41]).scalars ++ t.scalars)) := by
      rw [cut, Bytes.scalars_nil, List.append_assoc, List.cons_append, List.nil_append, ← cut]
      exact clean
    obtain ⟨scanned, -⟩ := scans _ (fresh_scalars fresh) [41] (mayFollow_close [] r) q
    rw [cut, show Bytes.scalars [41] = [paren] from rfl, Bytes.scalars_nil, scan_paren] at scanned
    have chars : Token.quotedChars [paren] = [Token.char 41].map .ok := rfl
    obtain same | unclean := Token.scan_quoting quoting alone (by rfl) chars
    · rw [same, List.map_append] at scanned
      simpa using List.append_cancel_left scanned
    · exact unclean ⟨tokens named r ++ [Token.close], by rw [scanned]; simp⟩
  refine ⟨alone, ?_⟩
  rw [scan_anchor]
  obtain same | ⟨-, m, ⟨before, last⟩, -⟩ := Token.scan_stops alone closed [Scalar.ascii 36]
  · rw [same, scan_paren, scan_dollar]
    simp [anchored]
  · obtain rfl | rfl : m = [] ∨ m = [Scalar.ascii 36] := by
      simpa [List.prefix_cons_iff] using before
    · simp at last
    · simp only [List.getLast?_singleton, Option.map_some, Option.some.injEq] at last
      exact absurd last (by decide)

/-! ### Reading the tokens of entries -/

/-- True if a leaf closes as many groups as it opens. -/
def Even (r : Rule) : Prop := ∀ tag source, r = regex tag source → Token.Balanced (leafTokens source)

theorem Sound.even {r : Rule} (sound : Sound r) : ∀ e ∈ reach r.entries, Even e.rule := by
  intro e mem tag source eq
  have accepted := sound.leaves e mem tag source eq
  rw [eq] at accepted
  exact balanced_of_readable (leaf_of_accepted accepted).readable

theorem balanced_textTokens (p : Bytes) : Token.Balanced (textTokens p) := by
  unfold textTokens
  induction p.scalars with
  | nil => exact fun _ => rfl
  | cons c s ih => exact fun n => ih n

theorem balanced_group (opener : Token) (opens : ∀ n xs,
    Token.levels n (opener :: xs) = Token.levels (n + 1) xs) {inner : List Token}
    (h : Token.Balanced inner) : Token.Balanced (opener :: (inner ++ [Token.close])) := by
  intro n
  rw [opens, Token.levels_append, h]
  rfl

theorem levels_openToken (named : Bool) (name : Bytes) (n : Nat) (xs : List Token) :
    Token.levels n (openToken named name :: xs) = Token.levels (n + 1) xs := by
  unfold openToken
  split <;> rfl

theorem balanced_repetition (how : Combinator) : Token.Balanced (repetition how) := by
  cases how <;> exact fun _ => rfl

theorem balanced_embed {named : Bool} {name : Bytes} {kind : Kind} {inner : List Token}
    (h : Token.Balanced inner) : Token.Balanced (embedTokens named name kind inner) := by
  unfold embedTokens
  split
  · exact balanced_group _ (levels_openToken named name) h
  · exact h

mutual

theorem balanced_tokens (named : Bool) : ∀ r : Rule, Even r → (∀ e ∈ reach r.entries, Even e.rule) →
    Token.Balanced (tokens named r)
  | regex tag source, leaf, _ => leaf tag source rfl
  | text _ literal, _, _ => balanced_textTokens literal
  | combine _ how entries, _, below => by
      have inner : Token.Balanced
          (if how = .oneOf then choiceTokens named entries else seqTokens named [] entries) := by
        split
        · exact balanced_choiceTokens named entries below
        · exact balanced_seqTokens named entries below []
      have group := balanced_group (.capture []) (fun _ _ => rfl) inner
      simpa [tokens] using group.append (balanced_repetition how)

theorem balanced_seqTokens (named : Bool) : ∀ entries : List (Entry Rule),
    (∀ e ∈ reach entries, Even e.rule) → ∀ pending, Token.Balanced (seqTokens named pending entries)
  | [], _, pending => balanced_textTokens pending
  | ⟨name, r⟩ :: rest, all, pending => by
      rw [reach_cons] at all
      have others := fun e he => all e (List.mem_cons_of_mem _ (List.mem_append_right _ he))
      rw [seqTokens]
      split
      · exact balanced_seqTokens named rest others _
      · have inner := balanced_tokens named r (all _ (List.mem_cons_self ..))
          fun e he => all e (List.mem_cons_of_mem _ (List.mem_append_left _ he))
        exact (balanced_textTokens pending).append
          ((balanced_embed inner).append (balanced_seqTokens named rest others []))

theorem balanced_choiceTokens (named : Bool) : ∀ entries : List (Entry Rule),
    (∀ e ∈ reach entries, Even e.rule) → Token.Balanced (choiceTokens named entries)
  | [], _ => fun _ => rfl
  | ⟨name, r⟩ :: rest, all => by
      rw [reach_cons] at all
      have others := fun e he => all e (List.mem_cons_of_mem _ (List.mem_append_right _ he))
      have inner := balanced_tokens named r (all _ (List.mem_cons_self ..))
        fun e he => all e (List.mem_cons_of_mem _ (List.mem_append_left _ he))
      rw [choiceTokens]
      refine (balanced_embed inner).append ?_
      split
      · exact fun _ => rfl
      · exact fun n => balanced_choiceTokens named rest others n

end

/-- True if the tokens of an entry's rule can be read by themselves, and in a group. -/
def Fits (flags : Flags) (e : Entry Rule) : Prop :=
  ∃ expr shape, Sketch.readWith flags (tokens true e.rule) = some (expr, shape) ∧
    shape.height < maxHeight

/-- What tokens that are read from one sketch to another tell: the settings are as before, and what
    stands in groups with names fits. -/
structure Reads (s s' : Sketch) (entries : List (Entry Rule)) : Prop where
  flags : s'.flags = s.flags
  fits : ∀ e ∈ entries, e.isNamed = true → Fits s.flags e

theorem Reads.trans {s t u : Sketch} {es ds : List (Entry Rule)} (h : Reads s t es)
    (h' : Reads t u ds) : Reads s u (es ++ ds) where
  flags := h'.flags.trans h.flags
  fits e mem isNamed := by
    obtain mem | mem := List.mem_append.1 mem
    · exact h.fits e mem isNamed
    · exact h.flags ▸ h'.fits e mem isNamed

theorem height_of_within {α : Type} {shape : Shape} {a b : α}
    (h : Sketch.within shape a = some b) : shape.height ≤ maxHeight := by
  unfold Sketch.within at h
  split at h
  · assumption
  · cases h

theorem reads_text {s s' : Sketch} {p : Bytes} (h : s.run (textTokens p) = some s') :
    Reads s s' [] := by
  unfold textTokens at h
  refine ⟨?_, by simp⟩
  generalize p.scalars = chars at h
  induction chars generalizing s with
  | nil =>
    cases h
    rfl
  | cons c rest ih =>
    simp only [List.map_cons, Sketch.run] at h
    split at h
    · cases h
    · rename_i next step
      simp only [Sketch.step, Sketch.push] at step
      rw [ih h, Sketch.eq_of_within step]

theorem reads_repetition {s s' : Sketch} {how : Combinator}
    (h : s.run (repetition how) = some s') : Reads s s' [] := by
  refine ⟨?_, by simp⟩
  have once {count : Count} {marked : Bool} {text : Bytes}
      (h : s.run [.repeated count marked text] = some s') : s'.flags = s.flags := by
    simp only [Sketch.run, Sketch.step] at h
    split at h
    · cases h
    · rename_i next step
      cases h
      unfold Sketch.repeatLast at step
      split at step
      · cases step
      · split at step
        · dsimp only at step
          split at step
          · rw [Sketch.eq_of_within step]
          · cases step
        · cases step
  cases how with
  | seq =>
    cases h
    rfl
  | oneOf =>
    cases h
    rfl
  | optional => exact once h
  | zeroOrMore isLazy => exact once h
  | oneOrMore isLazy => exact once h

/-- A group is read by reading what stands in it. -/
theorem read_group {s s' : Sketch} {name : Option Bytes} {inner : List Token}
    (balanced : Token.Balanced inner)
    (h : (s.enter name s.flags).run (inner ++ [Token.close]) = some s') :
    s'.flags = s.flags ∧ ∃ expr shape, Sketch.readWith s.flags inner = some (expr, shape) ∧
      (name.isSome → shape.height < maxHeight) := by
  rw [Sketch.run_enter balanced] at h
  split at h
  · cases h
  · rename_i expr shape read
    cases name with
    | none =>
      have same := Sketch.eq_of_within h
      exact ⟨by rw [same], expr, shape, read, by simp⟩
    | some name =>
      have same := Sketch.eq_of_within h
      have fits := height_of_within h
      refine ⟨by rw [same], expr, shape, read, fun _ => ?_⟩
      rw [Shape.height] at fits
      omega

theorem run_of_readWith {flags : Flags} {inner : List Token} {parts : Expr × Shape}
    (h : Sketch.readWith flags inner = some parts) : ∃ s, (Sketch.begin flags).run inner = some s := by
  unfold Sketch.readWith at h
  split at h
  · cases h
  · exact ⟨_, ‹_›⟩

theorem reads_embed {s s' : Sketch} {name : Bytes} {r : Rule} (balanced : Token.Balanced (tokens true r))
    (inside : r.kind ≠ .regex → ∀ t t' : Sketch, t.run (tokens true r) = some t' →
      Reads t t' (reach r.entries))
    (h : s.run (embedTokens true name r.kind (tokens true r)) = some s') :
    Reads s s' (⟨name, r⟩ :: reach r.entries) := by
  by_cases grouped : isGrouped name r.kind = true
  · rw [embedTokens, if_pos grouped, Sketch.run] at h
    have opened : ∃ group, s.step (openToken true name) = some (s.enter group s.flags) ∧
        ((⟨name, r⟩ : Entry Rule).isNamed = true → group.isSome) := by
      unfold openToken
      by_cases anonymous : name.isEmpty
      · exact ⟨none, by rw [if_pos anonymous]; rfl, by simp [Entry.isNamed, anonymous]⟩
      · exact ⟨some name, by rw [if_neg anonymous]; rfl, by simp⟩
    obtain ⟨group, step, named⟩ := opened
    simp only [step] at h
    obtain ⟨flags, expr, shape, read, height⟩ := read_group balanced h
    refine ⟨flags, fun e mem isNamed => ?_⟩
    obtain rfl | mem := List.mem_cons.1 mem
    · exact ⟨expr, shape, read, height (named isNamed)⟩
    · by_cases leaf : r.kind = .regex
      · cases r with
        | regex tag source => cases mem
        | _ => cases leaf
      · obtain ⟨t', run⟩ := run_of_readWith read
        exact (inside leaf _ _ run).fits e mem isNamed
  · rw [embedTokens, if_neg grouped] at h
    have kind : r.kind ≠ .regex := by
      intro kind
      exact grouped (by simp [isGrouped, kind])
    have reads := inside kind s s' h
    refine ⟨reads.flags, fun e mem isNamed => ?_⟩
    obtain rfl | mem := List.mem_cons.1 mem
    · exact absurd (by simp_all [isGrouped, Entry.isNamed]) grouped
    · exact reads.fits e mem isNamed

mutual

theorem reads_tokens : ∀ r : Rule, r.kind ≠ .regex → (∀ e ∈ reach r.entries, Even e.rule) →
    ∀ s s' : Sketch, s.run (tokens true r) = some s' → Reads s s' (reach r.entries)
  | regex _ _, kind, _, _, _, _ => absurd rfl kind
  | text _ _, _, _, _, _, h => reads_text h
  | combine _ how entries, _, below, s, s', h => by
      rw [tokens, Sketch.run] at h
      have step : s.step (.capture []) = some (s.enter (some []) s.flags) := rfl
      simp only [step] at h
      have cut (xs : List Token) : xs ++ Token.close :: repetition how =
          (xs ++ [Token.close]) ++ repetition how := by
        simp
      rw [cut, Sketch.run_append, Option.bind_eq_some_iff] at h
      obtain ⟨t, group, tail⟩ := h
      have after := reads_repetition tail
      have inner : Token.Balanced
          (if how = .oneOf then choiceTokens true entries else seqTokens true [] entries) := by
        split
        · exact balanced_choiceTokens true entries below
        · exact balanced_seqTokens true entries below []
      obtain ⟨flags, expr, shape, read, -⟩ := read_group inner group
      obtain ⟨u, run⟩ := run_of_readWith read
      have inside : Reads (Sketch.begin s.flags) u (reach entries) := by
        split at run
        · exact reads_choiceTokens entries below _ _ run
        · exact reads_seqTokens entries below [] _ _ run
      exact ⟨after.flags.trans flags, inside.fits⟩

theorem reads_seqTokens : ∀ entries : List (Entry Rule), (∀ e ∈ reach entries, Even e.rule) →
    ∀ (pending : Bytes) (s s' : Sketch), s.run (seqTokens true pending entries) = some s' →
      Reads s s' (reach entries)
  | [], _, _, _, _, h => reads_text h
  | ⟨name, r⟩ :: rest, all, pending, s, s', h => by
      rw [reach_cons] at all ⊢
      have here := all _ (List.mem_cons_self ..)
      have below := fun e he => all e (List.mem_cons_of_mem _ (List.mem_append_left _ he))
      have others := fun e he => all e (List.mem_cons_of_mem _ (List.mem_append_right _ he))
      rw [seqTokens] at h
      split at h
      · rename_i literal found
        obtain ⟨rfl, tag, rfl⟩ := eq_text_of_literal? found
        have reads := reads_seqTokens rest others _ s s' h
        refine ⟨reads.flags, fun e mem isNamed => ?_⟩
        obtain rfl | mem := List.mem_cons.1 mem
        · simp [Entry.isNamed] at isNamed
        · exact reads.fits e (by simpa [entries, reach, visitEntries, Walk.nothing] using mem) isNamed
      · rw [Sketch.run_append, Option.bind_eq_some_iff] at h
        obtain ⟨t, before, h⟩ := h
        rw [Sketch.run_append, Option.bind_eq_some_iff] at h
        obtain ⟨u, entry, after⟩ := h
        exact (reads_text before).trans
          ((reads_embed (balanced_tokens true r here below)
            (fun kind => reads_tokens r kind below) entry).trans
            (reads_seqTokens rest others [] u s' after))

theorem reads_choiceTokens : ∀ entries : List (Entry Rule), (∀ e ∈ reach entries, Even e.rule) →
    ∀ s s' : Sketch, s.run (choiceTokens true entries) = some s' → Reads s s' (reach entries)
  | [], _, _, _, h => by
      cases h
      exact ⟨rfl, by simp [reach, visitEntries, Walk.nothing]⟩
  | ⟨name, r⟩ :: rest, all, s, s', h => by
      rw [reach_cons] at all ⊢
      have here := all _ (List.mem_cons_self ..)
      have below := fun e he => all e (List.mem_cons_of_mem _ (List.mem_append_left _ he))
      have others := fun e he => all e (List.mem_cons_of_mem _ (List.mem_append_right _ he))
      rw [choiceTokens, Sketch.run_append, Option.bind_eq_some_iff] at h
      obtain ⟨t, entry, after⟩ := h
      have reads := reads_embed (balanced_tokens true r here below)
        (fun kind => reads_tokens r kind below) entry
      refine reads.trans ?_
      cases rest with
      | nil =>
        cases after
        exact ⟨rfl, by simp [reach, visitEntries, Walk.nothing]⟩
      | cons d rest =>
        simp only [List.isEmpty_cons, Bool.false_eq_true, if_false, Sketch.run] at after
        split at after
        · cases after
        · rename_i u bar
          have reads := reads_choiceTokens (d :: rest) others u s' after
          have flags : u.flags = t.flags := by rw [Sketch.eq_of_within bar]
          exact ⟨reads.flags.trans flags, fun e mem isNamed => flags ▸ reads.fits e mem isNamed⟩

end

/-! ### Names -/

theorem infix_embed (named : Bool) (name : Bytes) (kind : Kind) (inner : List Token) :
    inner <:+: embedTokens named name kind inner := by
  unfold embedTokens
  split
  · exact ⟨[openToken named name], [.close], by simp⟩
  · exact List.infix_rfl

mutual

/-- The tokens of a named entry stand among those of the rule. -/
theorem infix_tokens (named : Bool) : ∀ (r : Rule) (e : Entry Rule), e ∈ reach r.entries →
    e.isNamed = true → tokens named e.rule <:+: tokens named r
  | regex _ _, _, mem, _ => nomatch mem
  | text _ _, _, mem, _ => nomatch mem
  | combine _ how entries, e, mem, isNamed => by
      have inside : tokens named e.rule <:+:
          (if how = .oneOf then choiceTokens named entries else seqTokens named [] entries) := by
        split
        · exact infix_choiceTokens named entries e mem isNamed
        · exact infix_seqTokens named entries e mem isNamed []
      rw [tokens]
      exact inside.trans ⟨[.capture []], .close :: repetition how, by simp⟩

theorem infix_seqTokens (named : Bool) : ∀ (entries : List (Entry Rule)) (e : Entry Rule),
    e ∈ reach entries → e.isNamed = true → ∀ pending,
      tokens named e.rule <:+: seqTokens named pending entries
  | [], _, mem, _, _ => nomatch mem
  | ⟨name, r⟩ :: rest, e, mem, isNamed, pending => by
      rw [reach_cons, List.mem_cons, List.mem_append] at mem
      rw [seqTokens]
      split
      · rename_i literal found
        obtain ⟨rfl, tag, rfl⟩ := eq_text_of_literal? found
        obtain rfl | mem | mem := mem
        · simp [Entry.isNamed] at isNamed
        · nomatch mem
        · exact infix_seqTokens named rest e mem isNamed _
      · have here : embedTokens named name r.kind (tokens named r) <:+:
            textTokens pending ++
              (embedTokens named name r.kind (tokens named r) ++ seqTokens named [] rest) :=
          ⟨textTokens pending, seqTokens named [] rest, by simp⟩
        have inner := (infix_embed named name r.kind (tokens named r)).trans here
        obtain rfl | mem | mem := mem
        · exact inner
        · exact (infix_tokens named r e mem isNamed).trans inner
        · refine (infix_seqTokens named rest e mem isNamed []).trans ?_
          exact ⟨textTokens pending ++ embedTokens named name r.kind (tokens named r), [], by simp⟩

theorem infix_choiceTokens (named : Bool) : ∀ (entries : List (Entry Rule)) (e : Entry Rule),
    e ∈ reach entries → e.isNamed = true → tokens named e.rule <:+: choiceTokens named entries
  | [], _, mem, _ => nomatch mem
  | ⟨name, r⟩ :: rest, e, mem, isNamed => by
      rw [reach_cons, List.mem_cons, List.mem_append] at mem
      rw [choiceTokens]
      have inner := (infix_embed named name r.kind (tokens named r)).trans
        (List.prefix_append _ (if rest.isEmpty then [] else .bar :: choiceTokens named rest)).isInfix
      obtain rfl | mem | mem := mem
      · exact inner
      · exact (infix_tokens named r e mem isNamed).trans inner
      · refine (infix_choiceTokens named rest e mem isNamed).trans ?_
        cases rest with
        | nil => nomatch mem
        | cons d rest =>
          exact ⟨embedTokens named name r.kind (tokens named r) ++ [Token.bar], [], by simp⟩

end

theorem repeated?_eq_none {seen names : List Bytes} :
    repeated? seen names = none ↔ (names.filter (!·.isEmpty)).Nodup ∧
      ∀ name ∈ names, name ≠ [] → name ∉ seen := by
  induction names generalizing seen with
  | nil => simp [repeated?]
  | cons name rest ih =>
    rw [repeated?]
    by_cases anonymous : name = []
    · subst anonymous
      simp only [List.isEmpty_nil, Bool.not_true, Bool.false_and, Bool.false_eq_true, if_false, ih]
      grind -linarith
    · have isNamed : name.isEmpty = false := by simpa using anonymous
      simp only [isNamed, Bool.not_false, Bool.true_and]
      split
      · grind -linarith
      · rw [ih]
        grind -linarith

theorem repeated?_sublist {names names' : List Bytes} (sub : names.Sublist names')
    (h : repeated? [] names' = none) : repeated? [] names = none := by
  rw [repeated?_eq_none] at h ⊢
  exact ⟨h.1.sublist (sub.filter _), by simp⟩

/-! ### Between anchors -/

theorem sequence_between (a b : Assertion) (shape : Shape) :
    Shape.sequence [.test a, shape, .test b] =
      .cat (.test a :: (shape.links ++ [Shape.test b])) none := by
  cases shape <;> rfl

/-- A single alternative that fits can be finished. -/
theorem finish_single {s : Sketch} (single : s.top.choices = [])
    (fits : s.body.height ≤ maxHeight) : ∃ parts, s.finish = some parts := by
  have height (flags : Flags) : (Shape.select flags [s.body]).height ≤ maxHeight := by
    have select : Shape.select flags [s.body] = s.body.clean.asString flags := rfl
    rw [select, Shape.height_asString, Shape.height_clean]
    exact fits
  unfold Sketch.finish Sketch.endAlternative
  rw [Sketch.within, if_pos fits, single]
  simp only [Shape.also]
  rw [Sketch.within, if_pos (height _)]
  exact ⟨_, rfl⟩

theorem read_anchored {tokens : List Token} {expr : Expr} {shape : Shape}
    (h : Sketch.readWith {} tokens = some (expr, shape)) (fits : shape.height < maxHeight) :
    ∃ parts, Sketch.read (anchored tokens) = some parts := by
  have balanced := Sketch.balanced_of_readWith h
  have one : ∀ c, (Shape.test c).height ≤ maxHeight := fun c => by simp [Shape.height, maxHeight]
  have whole : (Shape.sequence [.test .beginText, shape.asString {}, .test .endText]).height ≤
      maxHeight := by
    rw [sequence_between, Shape.height, Shape.highest, Shape.highest_append]
    have links := Shape.highest_links (shape.asString {})
    rw [Shape.height_asString] at links
    have : 1 < maxHeight := by decide
    simp only [Shape.highest, Shape.height]
    omega
  have cut : anchored tokens =
      .caret :: .enclose [] :: ((tokens ++ [Token.close]) ++ [Token.dollar]) := by
    simp [anchored]
  have caret : Sketch.start.step .caret = Sketch.start.push (.test .beginText) (.test .beginText) :=
    rfl
  have push (e : Expr) {sh : Shape} (s : Sketch) (le : sh.height ≤ maxHeight) :
      s.push e sh = some { s with
        top := { s.top with exprs := e :: s.top.exprs, parts := sh.asString s.flags :: s.top.parts }
        last := [] } := if_pos le
  have group (s : Sketch) : (s.enter none {}).run (tokens ++ [Token.close]) =
      Sketch.push expr shape { s with last := [] } := by
    rw [Sketch.run_enter balanced, h]
    rfl
  have dollar (s : Sketch) (flags : s.flags = {}) :
      s.run [.dollar] = s.push (.test .endText) (.test .endText) := by
    simp only [Sketch.run, Sketch.step, flags, Bool.false_eq_true, if_false]
    cases s.push (.test .endText) (.test .endText) <;> rfl
  have enclose (s : Sketch) : s.step (.enclose []) = some (s.enter none s.flags) := rfl
  rw [Sketch.read, cut, Sketch.run, caret, push _ _ (one _)]
  simp only
  rw [Sketch.run, enclose]
  simp only
  rw [Sketch.run_append]
  erw [group]
  rw [push _ _ (Nat.le_of_lt fits), Option.bind_some, dollar _ rfl, push _ _ (one _)]
  simp only
  exact finish_single rfl whole

/-! ### Acceptance -/

theorem names_sublist {xs ys : List Token} (h : xs <:+: ys) :
    (Token.names xs).Sublist (Token.names ys) := by
  obtain ⟨before, after, rfl⟩ := h
  rw [Token.names_append, Token.names_append]
  exact (List.sublist_append_right _ _).trans (List.sublist_append_left _ _)

theorem Readable.anchored {tokens : List Token} {expr : Expr} {shape : Shape}
    (h : Sketch.readWith {} tokens = some (expr, shape)) (fits : shape.height < maxHeight)
    (names : repeated? [] (Token.names tokens) = none) : Readable (anchored tokens) where
  read := read_anchored h fits
  names := by simpa [Rule.anchored, Token.names, Token.names_append] using names

theorem compile_of_readable {r : Rule} {tokens inner : List Token}
    (scanned : scan r.namedPattern.scalars = tokens.map .ok) (readable : Readable tokens)
    (scanned' : scan (anchor r.namedPattern).scalars = inner.map .ok) (readable' : Readable inner) :
    Accepted r ∨ TooLarge r := by
  unfold Accepted TooLarge compile
  obtain ⟨search, ok⟩ | large := ofPattern_of_readable scanned readable
  · obtain ⟨whole, ok'⟩ | large := ofPattern_of_readable scanned' readable'
    · left
      rw [ok]
      simp only
      rw [ok']
      exact ⟨_, rfl⟩
    · right
      refine ⟨anchor r.namedPattern, by simp, ?_⟩
      rw [ok]
      simp only
      rw [large]
  · right
    refine ⟨r.namedPattern, by simp, ?_⟩
    rw [large]

/-- The named entries of a rule that is accepted are accepted too, or refused for their size. -/
theorem Sound.entry_accepted {r : Rule} (sound : Sound r) (accepted : Accepted r) {e : Entry Rule}
    (mem : e ∈ reach r.entries) (isNamed : e.isNamed = true) :
    Accepted e.rule ∨ TooLarge e.rule := by
  have combined : r.kind ≠ .regex := by
    cases r with
    | regex tag source => nomatch mem
    | _ => nofun
  obtain ⟨c, compiled⟩ := accepted
  unfold compile at compiled
  split at compiled
  · cases compiled
  · rename_i search found
    obtain ⟨whole, scanned, readable⟩ := readable_of_ofPattern found
    rw [namedPattern] at scanned
    have clean : Clean (scan (assemble true r ++ []).scalars) :=
      ⟨whole, by simpa using scanned⟩
    have nothing : Fresh [] := by simp [Fresh]
    obtain ⟨scanned', -, stands⟩ := sound.scans true nothing [] (mayFollow_nil combined)
      (by simpa using clean)
    have same : whole = tokens true r := by
      refine (List.map_inj_right fun _ _ => Except.ok.inj).1 (scanned.symm.trans ?_)
      simpa using scanned'
    subst same
    obtain ⟨parts, read⟩ := readable.read
    obtain ⟨s, run⟩ := run_of_readWith read
    obtain ⟨expr, shape, read, fits⟩ :=
      (reads_tokens r combined sound.even _ _ run).fits e mem isNamed
    have names := repeated?_sublist (names_sublist (infix_tokens true r e mem isNamed)) readable.names
    by_cases leaf : e.rule.kind = .regex
    · left
      cases rule : e.rule with
      | regex tag source => exact rule ▸ sound.leaves e mem tag source rule
      | _ =>
        rw [rule] at leaf
        cases leaf
    · obtain ⟨t, fresh, clean⟩ := stands e mem isNamed
      rw [List.append_nil] at clean
      obtain ⟨alone, between⟩ :=
        scan_alone leaf (fun _ => (sound.entry mem).scans true) fresh clean
      exact compile_of_readable alone ⟨⟨_, read⟩, names⟩ between (.anchored read fits names)

end Rule

end Rulebook

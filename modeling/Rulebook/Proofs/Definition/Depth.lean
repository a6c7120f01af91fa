import Rulebook.Proofs.Definition.Brackets
import Rulebook.Proofs.Definition.Range
import Rulebook.Proofs.Tree.Choice

/-!
# How deep groups are read

What stands in a group has one group less to open than the text of the group, because the search for
tokens never starts inside of quotes: every quoted text is taken where it starts. So groups are read
at most four levels deep, whatever the text (`Definition.readTokens_depth`).
-/

namespace Rulebook

open Pattern Bytes

namespace Bootstrap

open Rule

/-! ### What is left of a closed text -/

/-- True of what is left of a closed text at a place outside of quotes. -/
def Opens (limit : Nat) (w : List Scalar) : Prop :=
  ∃ opened ≤ limit, scan limit (.plain, opened) w = some (.plain, 0)

/-- True of a text in quotes of either kind. -/
def IsQuoted (w : List Scalar) : Prop :=
  w ∈ quotedText.expr.language ∨ w ∈ quotedPattern.expr.language

section

variable {limit high : Nat} {s : Scalar} {u v w : List Scalar}

theorem Closed.opens (h : Closed limit w) : Opens limit w := ⟨0, Nat.zero_le _, h⟩

theorem Opens.split (h : Opens limit (u ++ v)) (closed : Closed high u) :
    Closed limit u ∧ Opens limit v := by
  obtain ⟨opened, le, read⟩ := h
  obtain ⟨more, rfl⟩ := Nat.exists_eq_add_of_le' le
  rw [scan_append] at read
  obtain ⟨state, first, others⟩ := Option.bind_eq_some_iff.1 read
  obtain ⟨here, rfl⟩ := closed.of_scan first
  exact ⟨here.mono (Nat.le_add_right ..), opened, le, others⟩

/-- A quoted text starts where a quote stands. -/
theorem Opens.quoted (h : Opens limit (s :: w)) (mark : s.code = 34 ∨ s.code = 39) :
    ∃ u v, w = u ++ v ∧ IsQuoted (s :: u) := by
  obtain ⟨opened, -, read⟩ := h
  have enter : step limit (.plain, opened) s.code = some (.quoted s.code, opened) := by
    simp only [step]
    rw [if_neg (by omega), if_neg (by omega), if_pos mark]
  rw [scan_cons, enter, Option.bind_some] at read
  obtain code | code := mark
  · rw [code] at read
    obtain ⟨inside, right, rest, rfl, stop, mem⟩ := (exists_quoted isInside_text w).1 opened read
    refine ⟨inside ++ [right], rest, by simp, .inl ?_⟩
    rw [show quotedText.expr = _ from (simple_of_getElem 5 rfl).expr_eq tag]
    exact mem_quotedExpr.2 ⟨s, inside, right, rfl, code, stop, mem⟩
  · rw [code] at read
    obtain ⟨inside, right, rest, rfl, stop, mem⟩ := (exists_quoted isInside_pattern w).1 opened read
    refine ⟨inside ++ [right], rest, by simp, .inr ?_⟩
    rw [show quotedPattern.expr = _ from (simple_of_getElem 6 rfl).expr_eq tag]
    exact mem_quotedExpr.2 ⟨s, inside, right, rfl, code, stop, mem⟩

/-- A character that is no quote leaves the reader outside of quotes. -/
theorem Opens.tail (h : Opens limit (s :: w)) (other : ¬ (s.code = 34 ∨ s.code = 39)) :
    Opens limit w := by
  obtain ⟨opened, le, read⟩ := h
  rw [scan_cons, step] at read
  split at read
  · split at read
    · rename_i room
      exact ⟨opened + 1, room, read⟩
    · cases read
  · split at read
    · split at read
      · cases read
      · exact ⟨opened - 1, by omega, read⟩
    · exact ⟨opened, le, read⟩

/-- What stands in a group. -/
theorem Closed.inside {high' : Nat} {rest : List Scalar} (h : Closed limit (s :: (u ++ (v ++ rest))))
    (opens : s.code = 40) (before : Closed high u) (closed : Closed high' v) :
    ∃ less, limit = less + 1 ∧ Closed less v := by
  have enter : step limit (.plain, 0) s.code = if 0 < limit then some (.plain, 1) else none := by
    simp [step, opens]
  rw [Closed, scan_cons, enter] at h
  split at h
  · rename_i room
    obtain ⟨less, rfl⟩ := Nat.exists_eq_add_of_le' room
    refine ⟨less, rfl, ?_⟩
    rw [Option.bind_some, scan_append] at h
    obtain ⟨state, first, h⟩ := Option.bind_eq_some_iff.1 h
    obtain ⟨-, rfl⟩ := before.of_scan first
    rw [scan_append] at h
    obtain ⟨state, second, -⟩ := Option.bind_eq_some_iff.1 h
    exact (closed.of_scan second).1
  · cases h

end

/-! ### Searching in a closed text -/

/-- True of an expression that takes every quoted text and nothing but closed texts, and takes them
    wherever they stand. -/
structure Reads (limit : Nat) (e : Expr) : Prop where
  free : e.isFree = true
  closed : ∀ w ∈ e.language, Closed limit w
  some_char : ∀ w ∈ e.language, w ≠ []
  quoted : ∀ w, IsQuoted w → w ∈ e.language

section

variable {limit high : Nat} {e : Expr} {c d : Cursor}

theorem Reads.numbered (h : Reads high e) : Reads high e.numbered where
  free := by rw [Expr.numbered, Expr.isFree_numberFrom]; exact h.free
  closed := by rw [Expr.numbered, Expr.language_numberFrom]; exact h.closed
  some_char := by rw [Expr.numbered, Expr.language_numberFrom]; exact h.some_char
  quoted := by rw [Expr.numbered, Expr.language_numberFrom]; exact h.quoted

/-- What is left after characters at which nothing is taken. By induction on them: none is a quote. -/
theorem Reads.opens_skipped (h : Reads high e) {skipped w : List Scalar} (text : c.rest = skipped ++ w)
    (wide : ∀ s ∈ skipped, 0 < s.width) (opens : Opens limit c.rest)
    (none : ∀ d ∈ c.onward, d.offset < c.offset + (ofScalars skipped).length → ∀ d', ¬ e.Leads d d') :
    Opens limit w := by
  induction skipped generalizing c with
  | nil => rwa [text] at opens
  | cons s skipped ih =>
    obtain ⟨first, others⟩ := List.forall_mem_cons.1 wide
    have length : (ofScalars (s :: skipped)).length = s.width + (ofScalars skipped).length := by
      simp [Scalar.width]
    have other : ¬ (s.code = 34 ∨ s.code = 39) := by
      intro mark
      rw [text] at opens
      obtain ⟨u, v, split, mem⟩ := opens.quoted mark
      have here : e.Leads c (c.advance (s :: u) v) := (Expr.leads_of_free h.free).2
        ⟨s :: u, h.quoted _ mem, text.trans (congrArg (s :: ·) split), rfl⟩
      exact none c c.self_mem_onward (by omega) _ here
    refine ih (c := c.past s (skipped ++ w)) rfl others (by rw [text] at opens; exact opens.tail other)
      fun d mem low => ?_
    refine none d (Cursor.onward_trans (Cursor.past_mem_onward c.self_mem_onward text) mem) ?_
    rw [Cursor.past] at low
    dsimp only at low
    omega

/-- What is found is outside of quotes, and so is what follows. -/
theorem Reads.opens_find? (h : Reads high e) (wide : ∀ s ∈ c.rest, 0 < s.width)
    (opens : Opens limit c.rest) {f : Program.Found} (found : (Program.ofExpr e).find? c = some f) :
    ∃ d ∈ c.onward, (Program.ofExpr e).MatchAt d f ∧ Opens limit d.rest ∧ Opens limit f.stop.rest ∧
      f.finish ≠ c.offset := by
  have spec := Program.find?_spec e wide
  rw [found] at spec
  obtain ⟨d, onward, matched, leftmost⟩ := spec
  obtain ⟨skipped, text, place⟩ := Cursor.mem_onward.1 onward
  have here : Opens limit d.rest := by
    refine h.opens_skipped text (fun s mem => wide s (by simp [text, mem])) opens fun d' mem low => ?_
    rintro d'' ⟨m, passage⟩
    refine leftmost d' mem ?_ d'' m (Expr.reaches_iff.2 passage)
    rw [place]
    exact low
  obtain ⟨w, mem, rest, stop⟩ := (Expr.leads_of_free h.free).1 ⟨_, Expr.reaches_iff.1 matched.path⟩
  have after := (rest ▸ here : Opens limit (w ++ f.stop.rest)).split (h.closed w mem)
  refine ⟨d, onward, matched, here, after.2, ?_⟩
  obtain ⟨s, more, rfl⟩ := List.exists_cons_of_ne_nil (h.some_char w mem)
  have first := wide s (by simp [text, rest])
  have low := Cursor.offset_le_of_onward onward
  have finish := congrArg Cursor.offset stop
  rw [Cursor.offset_advance, ofScalars_cons, List.length_append] at finish
  rw [Scalar.width] at first
  rw [Program.Found.finish]
  omega

/-- All matches in a closed text are outside of quotes. -/
theorem Reads.opens_lists (h : Reads high e) {last : Option Nat} {fs : List Program.Found}
    (lists : Program.Lists (Program.ofExpr e) last c fs) (wide : ∀ s ∈ c.rest, 0 < s.width)
    (opens : Opens limit c.rest) :
    ∀ f ∈ fs, ∃ d ∈ c.onward, (Program.ofExpr e).MatchAt d f ∧ Opens limit d.rest := by
  induction lists with
  | none => nofun
  | ended found finish | empty found finish =>
    obtain ⟨-, -, -, -, -, further⟩ := h.opens_find? wide opens found
    exact absurd finish further
  | @full last c f fs found _ _ ih =>
    obtain ⟨d, onward, matched, here, after, -⟩ := h.opens_find? wide opens found
    have next := Program.stop_mem_onward found
    obtain ⟨skipped, text, -⟩ := Cursor.mem_onward.1 next
    refine List.forall_mem_cons.2 ⟨⟨d, onward, matched, here⟩, fun g mem => ?_⟩
    obtain ⟨d', onward', known⟩ := ih (fun s mem => wide s (by simp [text, mem])) after g mem
    exact ⟨d', Cursor.onward_trans next onward', known⟩

end

/-- The first part of a sequence that is found in a closed text is closed. -/
theorem closed_first {e : Entry Rule} {after : List (Entry Rule)} {limit high : Nat}
    (legal : Legal (seq (e :: after))) (reads : Reads high (seq (e :: after)).expr)
    (free : e.rule.expr.isFree = true) (closed : AllClosed high e.rule) (isNamed : e.isNamed = true)
    (distinct : (((e :: after).filter Entry.isNamed).map Entry.name).Nodup) {text : Bytes} {t : Tree}
    (mem : t ∈ (seq (e :: after)).nodes text) (opens : Opens limit text.scalars) :
    ∃ child, t.child? e.name = some child ∧ Closed limit child.text.scalars := by
  obtain ⟨c, found, compiled, mem, node⟩ := nodeOf_of_mem mem
  have searches := legal.sound.searches compiled
  rw [Regex.findAll, (legal.sound.lead_none (by simp [seq, kind]) compiled).1, searches.search] at mem
  obtain ⟨place, onward, matched, here⟩ := reads.numbered.opens_lists (Program.lists_findAll _ _ _)
    (wide_scalars text) opens found mem
  obtain ⟨c', d', inner, first, middle, last, built, child_eq⟩ :=
    Sound.part_of_seq [] e after legal.sound legal.texts compiled searches.names
      (Expr.reaches_iff.1 matched.path) node distinct isNamed
  obtain ⟨-, rfl, -⟩ := first
  obtain ⟨w, mem, rest, stop⟩ := (Expr.leads_of_free free).1 middle
  have taken := scalars_slice onward rest stop
  have standard := isStandard_of_mem (legal.entry (e := e) (List.mem_cons_self ..)).sound free
    (taken ▸ mem)
  refine ⟨_, child_eq, ?_⟩
  rw [Tree.text_rename, ((legal.entry (e := e) (List.mem_cons_self ..)).sound.text_of_descend standard
    built).1, taken]
  exact (rest ▸ here : Opens limit (w ++ d'.rest)).split (closed w mem) |>.1

/-! ### Tokens and alternatives -/

section

variable {r : Rule} {how : Combinator} {entries : List (Entry Rule)} {h c : Nat}

theorem Legal.isFree (legal : Legal r) (avoids : Avoids 10 r) : r.expr.isFree = true :=
  Expr.isFree_of_avoids (legal.sound.avoids_expr legal.read legal.texts avoids)

/-- A sequence takes no empty text if one of its entries takes none. -/
theorem ne_nil_seq (legal : Legal (seq entries)) {e : Entry Rule} (mem : e ∈ entries)
    (some_char : ∀ w ∈ e.rule.expr.language, w ≠ []) : ∀ w ∈ (seq entries).expr.language, w ≠ [] := by
  rintro w here rfl
  obtain ⟨pieces, all, none⟩ := (mem_seq legal).1 here
  obtain ⟨piece, mem', here⟩ := exists_right_of_forall₂ all.flip mem
  exact some_char piece here (List.flatten_eq_nil_iff.1 none.symm piece mem')

theorem ne_nil_oneOf (legal : Legal (oneOf entries)) (several : entries ≠ [])
    (some_char : ∀ e ∈ entries, ∀ w ∈ e.rule.expr.language, w ≠ []) :
    ∀ w ∈ (oneOf entries).expr.language, w ≠ [] := by
  intro w here
  obtain ⟨e, mem, here⟩ := (mem_oneOf legal several).1 here
  exact some_char e mem w here

theorem nil_mem_of_isOptional (legal : Legal (.combine tag how entries))
    (isOptional : how.isOptional = true) :
    [] ∈ (Rule.combine tag how entries).expr.language := by
  rw [(legal.sound.regroups_combine legal.read legal.texts).language_eq]
  cases how with
  | optional => exact .inr rfl
  | zeroOrMore isLazy => exact mem_multiples.2 ⟨[], trivial, rfl, nofun⟩
  | seq | oneOf | oneOrMore => cases isOptional

/-- A text of the first entry of a sequence is a text of the sequence if the others may be left out. -/
theorem mem_seq_of_first {e : Entry Rule} {after : List (Entry Rule)} (legal : Legal (seq (e :: after)))
    {w : List Scalar} (mem : w ∈ e.rule.expr.language)
    (others : ∀ d ∈ after, [] ∈ d.rule.expr.language) : w ∈ (seq (e :: after)).expr.language := by
  refine (mem_seq legal).2 ⟨w :: after.map fun _ => [], .cons mem ?_, by simp⟩
  rw [List.forall₂_map_left_iff]
  exact List.forall₂_same.2 others

end

theorem ne_nil_literal : ∀ w ∈ literal.expr.language, w ≠ [] := by
  refine ne_nil_oneOf legal_literal (by simp) ?_
  have text : ∀ w ∈ quotedText.expr.language, w ≠ [] := by
    rintro w mem rfl
    rw [show quotedText.expr = _ from (simple_of_getElem 5 rfl).expr_eq tag] at mem
    obtain ⟨_, _, _, none, -⟩ := mem_quotedExpr.1 mem
    cases none
  have pattern : ∀ w ∈ quotedPattern.expr.language, w ≠ [] := by
    rintro w mem rfl
    have := length_of_mem_quotedPattern mem
    simp at this
  have bare : ∀ w ∈ bare.expr.language, w ≠ [] := by
    rintro w mem rfl
    rw [show bare.expr = _ from (simple_of_getElem 7 rfl).expr_eq tag] at mem
    obtain ⟨pieces, some_piece, none, all⟩ := mem_multiples.1 mem
    obtain ⟨piece, mem⟩ := List.exists_mem_of_length_pos some_piece
    obtain ⟨s, rfl, -⟩ := all piece mem
    have := List.flatten_eq_nil_iff.1 none.symm _ mem
    cases this
  simpa using ⟨text, pattern, bare⟩

theorem quoted_mem_literal {w : List Scalar} (quoted : IsQuoted w) : w ∈ literal.expr.language := by
  refine (mem_oneOf legal_literal (by simp)).2 ?_
  obtain mem | mem := quoted
  · exact ⟨_, List.mem_cons_self .., mem⟩
  · exact ⟨_, List.mem_cons_of_mem _ (List.mem_cons_self ..), mem⟩

theorem language_anyLiteral : anyLiteral.expr.language = literal.expr.language :=
  language_leaf modest_literal (by decide)

theorem legal_optSuffix : Legal optSuffix := legal_of_modest modest_optSuffix (by decide)

theorem nil_mem_optSuffix : [] ∈ optSuffix.expr.language := nil_mem_of_isOptional legal_optSuffix rfl

theorem nil_mem_optSpace : [] ∈ optSpace.expr.language := nil_mem_of_isOptional legal_optSpace rfl

/-- A group takes no empty text. -/
theorem ne_nil_enclosed {e : Entry Rule}
    (legal : Legal (seq [item (text "("), item optSpace, e, item optSpace, item (text ")")])) :
    ∀ w ∈ (seq [item (text "("), item optSpace, e, item optSpace, item (text ")")]).expr.language,
      w ≠ [] := by
  refine ne_nil_seq legal (e := item (text "(")) (List.mem_cons_self ..) fun w mem => ?_
  obtain ⟨s, rfl, -⟩ := exists_of_mem_text 40 (by decide) (by decide) mem
  exact List.cons_ne_nil _ _

theorem reads_token : Reads 4 token.expr where
  free := legal_token.isFree avoids_token
  closed := allClosed_token
  some_char := by
    refine ne_nil_seq legal_token (e := ⟨"atom", atom⟩) (List.mem_cons_self ..) ?_
    refine ne_nil_oneOf legal_atom (by simp) ?_
    simpa using ⟨ne_nil_enclosed (e := ⟨"alternatives", _⟩) legal_group, ne_nil_literal⟩
  quoted w quoted := by
    refine mem_seq_of_first legal_token ?_ (List.forall_mem_singleton.2 nil_mem_optSuffix)
    refine (mem_oneOf legal_atom (by simp)).2 ⟨⟨"literal", literal⟩, by simp, quoted_mem_literal quoted⟩

theorem reads_innerToken : Reads 3 innerToken.expr := by
  have legal : Legal innerToken := legal_of_modest modest_innerToken (by decide)
  have legal_atom := legal.entry (e := item (oneOf _)) (List.mem_cons_self ..)
  have legal_group := legal_atom.entry (e := item (groupOf _)) (List.mem_cons_self ..)
  refine ⟨legal.isFree (avoids_tokenAt (maxDepth - 1)), allClosed_innerToken, ?_, fun w quoted => ?_⟩
  · refine ne_nil_seq legal (List.mem_cons_self ..) (ne_nil_oneOf legal_atom (by simp) ?_)
    simp only [List.mem_cons, List.not_mem_nil, or_false, forall_eq_or_imp, forall_eq]
    refine ⟨ne_nil_enclosed legal_group, ?_⟩
    rw [show (item anyLiteral).rule.expr.language = _ from language_anyLiteral]
    exact ne_nil_literal
  · refine mem_seq_of_first legal ?_ (List.forall_mem_singleton.2 nil_mem_optSuffix)
    refine (mem_oneOf legal_atom (by simp)).2 ⟨item anyLiteral, by simp, ?_⟩
    rw [show (item anyLiteral).rule.expr.language = _ from language_anyLiteral]
    exact quoted_mem_literal quoted

theorem language_sequence :
    (leaf (sequenceOf innerToken)).expr.language = (sequenceOf innerToken).expr.language :=
  language_leaf modest_sequence (by decide)

theorem avoids_sequence : Avoids 10 (leaf (sequenceOf innerToken)) :=
  avoids_leaf modest_sequence (by decide)
    (avoids_listOf (avoids_tokenAt (maxDepth - 1)) (avoids_space (by decide)))

theorem avoids_alternative : Avoids 10 alternative := by
  have bar : Avoids 10 (optional (text "|")) :=
    avoids_combine tag _ (List.forall_mem_singleton.2 (avoids_ascii "|" (by decide)))
  exact avoids_seq (by simpa using ⟨avoids_sequence, avoids_optSpace (by decide), bar,
    avoids_optSpace (by decide)⟩)

theorem reads_alternative : Reads 3 alternative.expr := by
  have legal : Legal (sequenceOf innerToken) := legal_of_modest modest_sequence (by decide)
  have more := nil_mem_of_isOptional
    (legal.entry (e := item (many [item space, item innerToken])) (by simp)) rfl
  have bar := nil_mem_of_isOptional
    (legal_alternative.entry (e := item (optional (text "|"))) (by simp)) rfl
  refine ⟨legal_alternative.isFree avoids_alternative, allClosed_alternative, ?_, fun w quoted => ?_⟩
  · refine ne_nil_seq legal_alternative (e := ⟨"sequence", _⟩) (List.mem_cons_self ..) ?_
    rw [language_sequence]
    exact ne_nil_seq legal (e := item innerToken) (List.mem_cons_self ..) reads_innerToken.some_char
  · refine mem_seq_of_first legal_alternative ?_ ?_
    · rw [language_sequence]
      refine mem_seq_of_first legal (reads_innerToken.quoted w quoted) (List.forall_mem_singleton.2 more)
    · simpa using ⟨nil_mem_optSpace, bar, nil_mem_optSpace⟩

/-! ### Groups in groups -/

section

variable {limit : Nat} {text : Bytes} {t a g alternatives sequence : Tree}

/-- The atom of a token, as closed as the text in which the token was found. -/
theorem closed_atom (mem : t ∈ token.nodes text) (opens : Opens limit text.scalars)
    (atom_ : t.child? "atom" = some a) : Closed limit a.text.scalars := by
  have avoids : Avoids 10 atom := avoids_token.entry (e := ⟨"atom", atom⟩) (List.mem_cons_self ..)
  obtain ⟨child, here, closed⟩ := closed_first legal_token reads_token (legal_atom.isFree avoids)
    allClosed_atom (by decide) (by decide) mem opens
  cases atom_.symm.trans here
  exact closed

/-- The sequence of an alternative, as closed as the text in which the alternative was found. -/
theorem closed_sequence (mem : t ∈ alternative.nodes text) (opens : Opens limit text.scalars)
    (sequence_ : t.child? "sequence" = some sequence) : Closed limit sequence.text.scalars := by
  have legal := legal_alternative.entry (e := ⟨"sequence", _⟩) (List.mem_cons_self ..)
  obtain ⟨child, here, closed⟩ := closed_first legal_alternative reads_alternative
    (legal.isFree avoids_sequence) allClosed_sequence (by decide) (by decide) mem opens
  cases sequence_.symm.trans here
  exact closed

/-- The atom of a token in any text. -/
theorem closed_atom_four (mem : t ∈ token.nodes text) (atom_ : t.child? "atom" = some a) :
    Closed 4 a.text.scalars := by
  have avoids : Avoids 10 atom := avoids_token.entry (e := ⟨"atom", atom⟩) (List.mem_cons_self ..)
  have recognised :=
    legal_token.sound.recognised_of_mem (avoids_token.conditionFree legal_token.sound) mem
  have matched := (recognised_of_child? atom recognised atom_ rfl).1
  rw [legal_atom.sound.matches_iff (modest_atom.accepted (by decide) (by decide) (by decide)) nofun
    (avoids.conditionFree legal_atom.sound)] at matched
  exact allClosed_atom _ matched

/-- The text of a group is that of the atom that it is. -/
theorem text_group (grown : Grown atom a) (group_ : a.child? "group" = some g) :
    g.text = a.text := by
  obtain ⟨mem, title⟩ := Tree.mem_of_child? group_
  obtain ⟨span, offset, c, found, inner, name, whole, rfl⟩ :=
    grown.wholeNode legal_atom.sound nofun (List.ne_nil_of_mem mem)
  rw [Tree.children_rename] at mem
  obtain ⟨e, entry, isNamed, -, inner', built, rfl⟩ :=
    Sound.part_of_oneOf legal_atom.sound legal_atom.texts whole mem
  rw [Tree.name_rename] at title
  have rule : e.rule = group := rule_eq_of_only (r := atom) rfl entry title
  rw [rule] at built
  rw [Tree.text_rename, Tree.text_rename, whole.text_eq]
  exact (legal_group.sound.text_of_descend nofun built).1

/-- What stands in a group has one group less to open. -/
theorem closed_alternatives (grown : Grown group g) (closed : Closed limit g.text.scalars)
    (here : g.child? "alternatives" = some alternatives) :
    ∃ less, limit = less + 1 ∧ Closed less alternatives.text.scalars := by
  obtain ⟨span, offset, c, found, inner, name, whole, rfl⟩ :=
    grown.wholeNode legal_group.sound nofun (List.ne_nil_of_mem (Tree.mem_of_child? here).1)
  have searches := legal_group.sound.searches whole.compiled
  obtain ⟨c', d', part, first, middle, last, built, part_eq⟩ :=
    Sound.part_of_seq [item (text "("), item optSpace]
      ⟨"alternatives", leaf (alternativesOf innerToken)⟩
      [item optSpace, item (text ")")] legal_group.sound legal_group.texts
      whole.compiled searches.whole_names whole.passage whole.node (by decide) (by decide)
  rw [Tree.child?, Tree.children_rename] at here
  cases here.symm.trans part_eq
  have legal : Legal (leaf (alternativesOf innerToken)) :=
    legal_group.entry (e := ⟨"alternatives", _⟩)
      (List.mem_cons_of_mem _ (List.mem_cons_of_mem _ (List.mem_cons_self ..)))
  have avoids : Avoids 10 (leaf (alternativesOf innerToken)) :=
    avoids_leaf modest_alternatives (by decide)
      (avoids_listOf (avoids_tokenAt (maxDepth - 1)) avoids_separator)
  have free := legal.isFree avoids
  obtain ⟨w, mem, rest, stop⟩ := (Expr.leads_of_free free).1 middle
  have taken := scalars_slice first.mem_onward rest stop
  have standard := isStandard_of_mem legal.sound free (taken ▸ mem)
  rw [Tree.text_rename, (legal.sound.text_of_descend standard built).1, taken]
  obtain ⟨e, paren, blanks⟩ :=
    (Expr.leads_concat_append [exprOf (item (text "("))] [exprOf (item optSpace)]).1 first
  obtain ⟨paren, mem₁, rest₁, -⟩ :=
    (Expr.leads_of_free (isFree_textExpr "(")).1 ((leads_exprOf ..).1 paren)
  obtain ⟨blanks, mem₂, rest₂, -⟩ :=
    (Expr.leads_of_free isFree_optSpace).1 ((leads_exprOf ..).1 blanks)
  obtain ⟨s, rfl, code⟩ := exists_of_mem_text 40 (by decide) (by decide) mem₁
  rw [Tree.text_rename, whole.text_eq, show span.scalars = _ from rest₁, List.singleton_append,
    rest₂, rest] at closed
  have before : Closed 0 blanks := allClosed_optSpace blanks mem₂
  exact closed.inside code before (allClosed_alternatives w mem)

end

end Bootstrap

namespace Definition

open Bootstrap (token alternative Closed)

/-! ### Readers of tokens -/

/-- True of the reasons to halt other than quotes that are missing and a group inside itself. -/
def Halt.Settled : Halt → Prop
  | .range .quotes => False
  | .endless => False
  | _ => True

theorem errors_settled : Errors Halt.Settled := fun _ => trivial

/-- True of two computations that come to the same, and halt neither for want of quotes nor of depth. -/
structure Agree {α : Type} (x y : Except Halt α) : Prop where
  same : x = y
  settled : Within Halt.Settled x

section

variable {α β : Type} {x y : Except Halt α}

theorem agree_ok (a : α) : Agree (.ok a : Except Halt α) (.ok a) := ⟨rfl, within_ok a⟩

theorem agree_lift (x : Except Error α) : Agree (lift x) (lift x) :=
  ⟨rfl, within_lift errors_settled x⟩

theorem settled_locate {m : Marker} {offset : Int} {fault : RangeFault}
    (h : m.locate offset = .error fault) : Halt.Settled (.range fault) := by
  unfold Marker.locate Marker.seek Marker.distance at h
  split at h
  · rename_i failed
    cases h
    split at failed
    · rename_i failed
      cases failed
      split at failed
      · cases failed
        trivial
      · split at failed
        · cases failed
        · cases failed
          trivial
    · cases failed
  · cases h

theorem agree_errorAt (c : Context) (offset : Int) (cause : Error) :
    Agree (.error (c.errorAt offset cause) : Except Halt α) (.error (c.errorAt offset cause)) := by
  refine ⟨rfl, within_error ?_⟩
  unfold Context.errorAt
  split
  · exact settled_locate ‹_›
  · trivial

theorem agree_combine (c : Context) (how : Combinator) (entries : List (Entry Rule)) :
    Agree (combine c how entries) (combine c how entries) := agree_lift _

theorem Agree.bind (h : Agree x y) {f f' : α → Except Halt β}
    (h' : ∀ a, x = .ok a → Agree (f a) (f' a)) : Agree (x >>= f) (y >>= f') := by
  obtain ⟨rfl, settled⟩ := h
  refine ⟨?_, settled.bind fun a eq => (h' a eq).settled⟩
  cases x with
  | ok a => exact (h' a rfl).same
  | error halt => rfl

/-- Trees one after another. -/
theorem agree_mapM {trees : List Tree} {f f' : Tree → Except Halt β}
    (h : ∀ t ∈ trees, Agree (f t) (f' t)) :
    Agree ((trees.map .ok).mapM fun result => do
        let node ← lift result
        f node)
      ((trees.map .ok).mapM fun result => do
        let node ← lift result
        f' node) := by
  induction trees with
  | nil => exact agree_ok _
  | cons t rest ih =>
    obtain ⟨here, others⟩ := List.forall_mem_cons.1 h
    rw [List.map_cons, List.mapM_cons, List.mapM_cons]
    exact Agree.bind here fun b _ => (ih others).bind fun bs _ => agree_ok _

end

section

variable {c : Context} {limit : Nat} {read read' : TokenReader} {base : Int}

/-- True of two readers that agree on closed texts. -/
def AgreeOn (limit : Nat) (read read' : TokenReader) : Prop :=
  ∀ text, Closed limit text.scalars → ∀ base, Agree (read text base) (read' text base)

theorem agree_readLiteral {literal : Tree}
    (quotes : ∀ pattern, literal.child? "pattern" = some pattern → 2 ≤ pattern.text.length) :
    Agree (readLiteral c base literal) (readLiteral c base literal) := by
  unfold readLiteral
  split
  · split
    · exact agree_errorAt ..
    · exact agree_ok _
  · split
    · rename_i pattern here
      rw [if_neg (by have := quotes pattern here; omega)]
      exact agree_ok _
    · split
      · exact agree_errorAt ..
      · refine (agree_lift _).bind fun isName _ => ?_
        split
        · split
          · exact agree_errorAt ..
          · exact agree_ok _
        · exact agree_ok _

theorem agree_readGroup (bootstrap : c.grammar = .bootstrap) {g : Tree}
    (agree : ∀ less, limit = less + 1 → AgreeOn less read read')
    (grown : Rule.Grown Bootstrap.group g) (closed : Closed limit g.text.scalars) :
    Agree (readGroup c read base g) (readGroup c read' base g) := by
  unfold readGroup
  split
  · exact agree_errorAt ..
  · rename_i alternatives here
    obtain ⟨less, eq, inside⟩ := Bootstrap.closed_alternatives grown closed here
    have trees : c.grammar.alternative.trees alternatives.text =
        (alternative.nodes alternatives.text).map .ok := by
      rw [bootstrap]
      exact Bootstrap.ready_alternative.trees_eq alternatives.text
    rw [trees]
    refine (agree_mapM fun t mem => ?_).bind fun rules _ => agree_combine ..
    unfold readAlternative
    split
    · exact agree_ok _
    · rename_i sequence sequence_
      refine (agree less eq _ (Bootstrap.closed_sequence mem inside.opens sequence_) _).bind
        fun tokens _ => ?_
      split
      · exact agree_ok _
      · exact (agree_combine ..).bind fun rule _ => agree_ok _

theorem agree_readToken (bootstrap : c.grammar = .bootstrap) {text : Bytes} {t : Tree}
    (agree : ∀ less, limit = less + 1 → AgreeOn less read read') (mem : t ∈ token.nodes text)
    (closed : ∀ a, t.child? "atom" = some a → Closed limit a.text.scalars) :
    Agree (readToken c read base t) (readToken c read' base t) := by
  have atom_ : Agree (readAtom c read base t) (readAtom c read' base t) := by
    unfold readAtom
    split
    · exact agree_errorAt ..
    · rename_i a here
      have grown := Bootstrap.grown_of_mem_nodes Bootstrap.atom mem here rfl
      split
      · rename_i g group_
        have inside := Bootstrap.grown_of_child? Bootstrap.group grown group_ rfl
        refine (agree_readGroup bootstrap agree inside ?_).bind fun rule _ => agree_ok _
        rw [Bootstrap.text_group grown group_]
        exact closed a here
      · split
        · rename_i literal literal_
          exact agree_readLiteral fun p => Bootstrap.length_pattern mem here literal_
        · exact agree_errorAt ..
  refine atom_.bind fun atom _ => ?_
  split
  · exact agree_ok _
  · split
    · exact agree_ok _
    · split
      · exact agree_errorAt ..
      · exact (agree_combine ..).bind fun rule _ => agree_ok _

/-- The tokens of a text whose atoms are closed. -/
theorem agree_readTokens (bootstrap : c.grammar = .bootstrap) {more : Nat} {text : Bytes}
    (agree : ∀ less, limit = less + 1 →
      AgreeOn less (readTokens c (limit + more)) (readTokens c limit))
    (closed : ∀ t ∈ token.nodes text, ∀ a, t.child? "atom" = some a → Closed limit a.text.scalars) :
    Agree (readTokens c (limit + 1 + more) text base) (readTokens c (limit + 1) text base) := by
  have trees : c.grammar.token.trees text = (token.nodes text).map .ok := by
    rw [bootstrap]
    exact Bootstrap.ready_token.trees_eq text
  rw [Nat.add_right_comm, readTokens, readTokens, trees]
  exact agree_mapM fun t mem => agree_readToken bootstrap agree mem (closed t mem)

/-- Any depth beyond the groups that a closed text can open comes to the same. By induction on how many
    it can open. -/
theorem agreeOn_readTokens (bootstrap : c.grammar = .bootstrap) (limit more : Nat) :
    AgreeOn limit (readTokens c (limit + 1 + more)) (readTokens c (limit + 1)) := by
  induction limit with
  | zero =>
    exact fun text closed base => agree_readTokens bootstrap nofun fun t mem a atom_ =>
      Bootstrap.closed_atom mem closed.opens atom_
  | succ limit ih =>
    refine fun text closed base => agree_readTokens bootstrap (fun less eq => ?_)
      fun t mem a atom_ => Bootstrap.closed_atom mem closed.opens atom_
    cases eq
    exact ih

/-- Groups are read at most four levels deep, whatever the text: with more depth a reader comes to the
    same. -/
theorem readTokens_depth (bootstrap : c.grammar = .bootstrap) (more : Nat) (text : Bytes) (base : Int) :
    Agree (readTokens c (Bootstrap.maxDepth + 1 + more) text base)
      (readTokens c (Bootstrap.maxDepth + 1) text base) := by
  refine agree_readTokens bootstrap (fun less eq => ?_) fun t mem a atom_ =>
    Bootstrap.closed_atom_four mem atom_
  cases eq
  exact agreeOn_readTokens bootstrap 3 more

/-- A text has no more groups than characters, so the depth at which a value is read is enough. -/
theorem readTokens_length (bootstrap : c.grammar = .bootstrap) (more : Nat) (text : Bytes)
    (base : Int) :
    Agree (readTokens c (text.length + 1 + more) text base)
      (readTokens c (text.length + 1) text base) := by
  refine agree_readTokens bootstrap (fun less eq => ?_) fun t mem a atom_ => ?_
  · rw [eq]
    exact agreeOn_readTokens bootstrap less more
  · have rooted := Tree.rooted_of_mem mem
    obtain ⟨start, offset, fits, slice⟩ := (rooted.child? atom_).1.stands
    have few := (Bootstrap.closed_atom_four mem atom_).few
    exact few.mono (Nat.le_trans (Bootstrap.length_scalars_le _) (by omega))

/-- A value is read as if groups could nest at most four levels deep. -/
theorem readValue_depth (bootstrap : c.grammar = .bootstrap) (text : Bytes) (base : Int) :
    Agree (readValue c text base)
      (readTokens c (Bootstrap.maxDepth + 1) text base >>= combine c .seq) := by
  have long := readTokens_length bootstrap (Bootstrap.maxDepth) text base
  have deep := readTokens_depth bootstrap text.length text base
  have both : readTokens c (text.length + 1) text base =
      readTokens c (Bootstrap.maxDepth + 1) text base := by
    rw [← long.same, ← deep.same]
    congr 1
    omega
  have settled : Agree (readTokens c (text.length + 1) text base)
      (readTokens c (Bootstrap.maxDepth + 1) text base) := ⟨both, long.same ▸ long.settled⟩
  exact settled.bind fun tokens _ => agree_combine ..

end

end Definition

end Rulebook

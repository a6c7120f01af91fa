import Rulebook.Proofs.Definition.Forms
import Rulebook.Proofs.Definition.Munching
import Rulebook.Proofs.Tree.Cutting

/-!
# How the rules of the grammar cut texts

A value and what stands between two bars of a group are lists of tokens: the rule for tokens cuts them
into the tokens and the blanks between them (`Bootstrap.cuts_tokens`). What stands in a group are
sequences of tokens: the rule for alternatives cuts it into the sequences, each with the bar after it
(`Bootstrap.cuts_ended`), so there is one more of them than there are bars (`Bootstrap.bars_alternatives`).
-/

namespace Rulebook

open Pattern Bytes

namespace Bootstrap

open Rule

/-! ### No round of a loop is empty -/

/-- True of a rule in whose pattern no round of a loop can be empty. -/
def Steady (r : Rule) : Prop := r.expr.isSteady = true

section

variable {how : Combinator} {entries : List (Entry Rule)} {e : Entry Rule} {t sep : Rule} {h c : Nat}

theorem isSteady_exprOf : (exprOf e).isSteady = e.rule.expr.isSteady := by
  unfold exprOf entryExpr
  split <;> rfl

theorem Legal.steady (legal : Legal (.combine tag how entries)) (each : ∀ e ∈ entries, Steady e.rule)
    (full : ∀ isLazy, how = .zeroOrMore isLazy ∨ how = .oneOrMore isLazy →
      (Expr.concat (entries.map exprOf)).nullable = false) : Steady (.combine tag how entries) := by
  have parts : ∀ x ∈ entries.map exprOf, x.isSteady = true := by
    intro x mem
    obtain ⟨e, here, rfl⟩ := List.mem_map.1 mem
    exact isSteady_exprOf.trans (each e here)
  have row := Expr.isSteady_concat _ parts
  rw [Steady, (legal.sound.regroups_combine legal.read legal.texts).isSteady_eq]
  cases how with
  | oneOf => exact Expr.isSteady_choice parts
  | seq | optional => exact row
  | zeroOrMore isLazy => simp [Combinator.repeats, Combinator.joins, Expr.nullable, full, row]
  | oneOrMore isLazy => simp [Combinator.repeats, Combinator.joins, Expr.nullable, full, row]

theorem steady_leaf (modest : Modest (.combine tag how entries) h c) (fits : h < maxHeight)
    (steady : Steady (.combine tag how entries)) : Steady (leaf (.combine tag how entries)) := by
  obtain ⟨x, shape, p, read, -⟩ := modest.whole fits
  rw [Steady, leaf, modest.plain.expr_asLeaf modest.unnamed modest.sound.even read.read,
    Expr.isSteady_nameless]
  exact steady

theorem steady_text (literal : Bytes) : Steady (text literal) := isSteady_textExpr literal

theorem steady_optSpace : Steady optSpace := by
  have blank : Steady blank := by
    rw [Steady, expr_blank]
    rfl
  exact legal_optSpace.steady (List.forall_mem_singleton.2 blank) fun _ _ => full_blank

theorem steady_space : Steady space := by
  have legal : Legal space := legal_of_modest modest_space (by decide)
  have blank : Steady blank := by
    rw [Steady, expr_blank]
    rfl
  exact legal.steady (List.forall_mem_singleton.2 blank) fun _ _ => full_blank

theorem steady_suffix : Steady suffix :=
  legal_suffix.steady (by simpa using ⟨steady_text _, steady_text _, steady_text _, steady_text _,
    steady_text _⟩) (by simp)

theorem steady_optSuffix : Steady optSuffix :=
  legal_optSuffix.steady (List.forall_mem_singleton.2 steady_suffix) (by simp)

theorem steady_literal : Steady literal := by
  refine legal_literal.steady ?_ (by simp)
  simp only [List.forall_mem_cons, Steady, expr_quotedText, expr_quotedPattern, expr_bare]
  exact ⟨rfl, rfl, rfl, nofun⟩

theorem steady_separator : Steady separator := by
  have bar : Steady barred :=
    legal_barred.steady (by simpa using ⟨steady_optSpace, steady_text _, steady_optSpace⟩) (by simp)
  exact legal_separator.steady (by simpa using ⟨bar, steady_space⟩) (by simp)

theorem steady_listOf (legal : Legal (seq [item t, item (many [item sep, item t])]))
    (free : t.expr.isFree = true) (apart : Apart t) (one : Steady t) (between : Steady sep) :
    Steady (seq [item t, item (many [item sep, item t])]) := by
  have legal_many : Legal (many [item sep, item t]) := legal.entry (e := item (many _)) (by simp)
  have more : Steady (many [item sep, item t]) := by
    exact legal_many.steady (by simpa using ⟨between, one⟩) fun _ _ => nullable_separated free apart
  exact legal.steady (by simpa using ⟨one, more⟩) (by simp)

theorem steady_enclosed {e : Entry Rule}
    (legal : Legal (seq [item (text "("), item optSpace, e, item optSpace, item (text ")")]))
    (steady : Steady e.rule) :
    Steady (seq [item (text "("), item optSpace, e, item optSpace, item (text ")")]) :=
  legal.steady (by simpa using ⟨steady_text _, steady_optSpace, steady, steady_optSpace, steady_text _⟩)
    (by simp)

theorem steady_tokenAt (depth : Nat) (legal : Legal (tokenAt depth)) : Steady (tokenAt depth) := by
  have literal : Steady anyLiteral := steady_leaf modest_literal (by decide) steady_literal
  induction depth with
  | zero => exact legal.steady (by simpa using ⟨literal, steady_optSuffix⟩) (by simp)
  | succ depth ih =>
    obtain ⟨atom, group, choices, one⟩ := legal.parts
    have inside : Steady (alternativesOf (tokenAt depth)) :=
      steady_listOf choices (one.isFree (avoids_tokenAt depth)) (apart_delimited_tokenAt depth one).1
        (ih one) steady_separator
    have enclosed : Steady (groupOf (tokenAt depth)) :=
      steady_enclosed (e := item (alternativesOf _)) group inside
    have first : Steady (oneOf [item (groupOf (tokenAt depth)), item anyLiteral]) :=
      atom.steady (by simpa using ⟨enclosed, literal⟩) (by simp)
    exact legal.steady (by simpa using ⟨first, steady_optSuffix⟩) (by simp)

theorem steady_token : Steady token := by
  have legal_inside : Legal (alternativesOf innerToken) := legal_of_modest modest_alternatives (by decide)
  have inside : Steady (alternativesOf innerToken) :=
    steady_listOf legal_inside isFree_innerToken apart_innerToken (steady_tokenAt _ legal_innerToken)
      steady_separator
  have group : Steady group :=
    steady_enclosed (e := ⟨"alternatives", _⟩) legal_group (steady_leaf modest_alternatives (by decide) inside)
  have atom : Steady atom := legal_atom.steady (by simpa using ⟨group, steady_literal⟩) (by simp)
  exact legal_token.steady (by simpa using ⟨atom, steady_optSuffix⟩) (by simp)

theorem legal_bar : Legal (optional (text "|")) :=
  legal_alternative.entry (e := item (optional (text "|"))) (by simp)

theorem steady_alternative : Steady alternative := by
  have legal : Legal (sequenceOf innerToken) := legal_of_modest modest_sequence (by decide)
  have row : Steady (sequenceOf innerToken) :=
    steady_listOf legal isFree_innerToken apart_innerToken (steady_tokenAt _ legal_innerToken) steady_space
  have bar : Steady (optional (text "|")) :=
    legal_bar.steady (List.forall_mem_singleton.2 (steady_text _)) (by simp)
  exact legal_alternative.steady (by simpa using ⟨steady_leaf modest_sequence (by decide) row,
    steady_optSpace, bar, steady_optSpace⟩) (by simp)

end

/-! ### Lists -/

section

variable {t t' sep : Rule} {w : List Scalar}

/-- True of a rule if the texts of another are among its own. -/
def Includes (t' t : Rule) : Prop := ∀ w ∈ t.expr.language, w ∈ t'.expr.language

theorem includes_seq {entries entries' : List (Entry Rule)} (legal : Legal (seq entries))
    (legal' : Legal (seq entries'))
    (each : List.Forall₂ (fun e e' => Includes e'.rule e.rule) entries entries') :
    Includes (seq entries') (seq entries) := by
  intro w mem
  obtain ⟨pieces, all, rfl⟩ := (mem_seq legal).1 mem
  refine (mem_seq legal').2 ⟨pieces, ?_, rfl⟩
  clear mem legal legal'
  induction each generalizing pieces with
  | nil => exact all
  | cons here _ ih =>
    obtain ⟨piece, others, mem, later, rfl⟩ := List.forall₂_cons_right_iff.1 all
    exact .cons (here piece mem) (ih others later)

theorem includes_oneOf {entries entries' : List (Entry Rule)} (legal : Legal (oneOf entries))
    (legal' : Legal (oneOf entries')) (several : entries ≠ []) (several' : entries' ≠ [])
    (each : ∀ e ∈ entries, ∃ e' ∈ entries', Includes e'.rule e.rule) :
    Includes (oneOf entries') (oneOf entries) := by
  intro w mem
  obtain ⟨e, here, mem⟩ := (mem_oneOf legal several).1 mem
  obtain ⟨e', here', includes⟩ := each e here
  exact (mem_oneOf legal' several').2 ⟨e', here', includes w mem⟩

/-- The text of words with the gaps before them. -/
def joined (pieces : List (List Scalar × List Scalar)) : List Scalar :=
  pieces.flatMap fun piece => piece.1 ++ piece.2

/-- A list is a first word and others, each after a separator. -/
theorem mem_listOf (legal : Legal (seq [item t, item (many [item sep, item t])])) :
    w ∈ (seq [item t, item (many [item sep, item t])]).expr.language ↔
      ∃ first pieces, w = first ++ joined pieces ∧ first ∈ t.expr.language ∧
        ∀ piece ∈ pieces, piece.1 ∈ sep.expr.language ∧ piece.2 ∈ t.expr.language := by
  have legal_many : Legal (many [item sep, item t]) := legal.entry (e := item (many _)) (by simp)
  rw [mem_seq legal]
  simp only [List.forall₂_cons_right_iff, List.forall₂_nil_right_iff]
  constructor
  · rintro ⟨_, ⟨first, _, one, ⟨others, _, more, rfl, rfl⟩, rfl⟩, rfl⟩
    obtain ⟨texts, rfl, all⟩ := (mem_many legal_many).1 more
    have split : ∃ pieces : List (List Scalar × List Scalar), texts.flatten = joined pieces ∧
        ∀ piece ∈ pieces, piece.1 ∈ sep.expr.language ∧ piece.2 ∈ t.expr.language := by
      clear more one
      induction texts with
      | nil => exact ⟨[], rfl, nofun⟩
      | cons text texts ih =>
        obtain ⟨here, others⟩ := List.forall_mem_cons.1 all
        obtain ⟨pieces, eq, known⟩ := ih others
        obtain ⟨gap, mem, word, mem', rfl⟩ := here
        refine ⟨(gap, word) :: pieces, ?_, List.forall_mem_cons.2 ⟨⟨mem, mem'⟩, known⟩⟩
        rw [List.flatten_cons, eq]
        rfl
    obtain ⟨pieces, eq, known⟩ := split
    exact ⟨first, pieces, by simp [eq], one, known⟩
  · rintro ⟨first, pieces, rfl, one, all⟩
    refine ⟨[first, joined pieces], ⟨first, _, one, ⟨joined pieces, _, ?_, rfl, rfl⟩, rfl⟩, by simp⟩
    refine (mem_many legal_many).2 ⟨pieces.map fun piece => piece.1 ++ piece.2, by rw [joined, List.flatMap_def], ?_⟩
    refine List.forall_mem_map.2 fun piece mem => ?_
    exact ⟨piece.1, (all piece mem).1, piece.2, (all piece mem).2, rfl⟩

theorem includes_listOf (legal : Legal (seq [item t, item (many [item sep, item t])]))
    (legal' : Legal (seq [item t', item (many [item sep, item t'])])) (includes : Includes t' t) :
    Includes (seq [item t', item (many [item sep, item t'])])
      (seq [item t, item (many [item sep, item t])]) := by
  intro w mem
  obtain ⟨first, pieces, rfl, one, all⟩ := (mem_listOf legal).1 mem
  exact (mem_listOf legal').2 ⟨first, pieces, rfl, includes first one, fun piece mem =>
    ⟨(all piece mem).1, includes _ (all piece mem).2⟩⟩

end

theorem includes_enclosed (e e' : Entry Rule)
    (legal : Legal (seq [item (text "("), item optSpace, e, item optSpace, item (text ")")]))
    (legal' : Legal (seq [item (text "("), item optSpace, e', item optSpace, item (text ")")]))
    (includes : Includes e'.rule e.rule) :
    Includes (seq [item (text "("), item optSpace, e', item optSpace, item (text ")")])
      (seq [item (text "("), item optSpace, e, item optSpace, item (text ")")]) :=
  includes_seq legal legal' (by simpa [Includes] using includes)

/-- A token of one depth is one of the next. -/
theorem includes_tokenAt_succ (depth : Nat) (legal : Legal (tokenAt (depth + 1))) :
    Includes (tokenAt (depth + 1)) (tokenAt depth) := by
  induction depth with
  | zero =>
    obtain ⟨atom, -, -, one⟩ := legal.parts
    refine includes_seq one legal (.cons (fun w mem => ?_) (.cons (fun w mem => mem) .nil))
    exact (mem_oneOf atom (by simp)).2 ⟨item anyLiteral, by simp, mem⟩
  | succ depth ih =>
    obtain ⟨atom', group', choices', one'⟩ := legal.parts
    obtain ⟨atom, group, choices, one⟩ := one'.parts
    have inside : Includes (alternativesOf (tokenAt (depth + 1))) (alternativesOf (tokenAt depth)) :=
      includes_listOf choices choices' (ih one')
    have enclosed : Includes (groupOf (tokenAt (depth + 1))) (groupOf (tokenAt depth)) :=
      includes_enclosed (item (alternativesOf _)) (item (alternativesOf _)) group group' inside
    refine includes_seq one' legal (.cons ?_ (.cons (fun w mem => mem) .nil))
    refine includes_oneOf atom atom' (by simp) (by simp) ?_
    simpa using ⟨.inl enclosed, .inr fun w mem => mem⟩

theorem includes_token : Includes token innerToken := by
  obtain ⟨atom, group, choices, one⟩ := Legal.parts 2 legal_innerToken
  have inside : Includes (leaf (alternativesOf innerToken)) (alternativesOf (tokenAt 2)) := by
    have legal : Legal (alternativesOf innerToken) := legal_of_modest modest_alternatives (by decide)
    intro w mem
    rw [language_alternatives]
    exact includes_listOf choices legal (includes_tokenAt_succ 2 legal_innerToken) w mem
  have enclosed : Includes Bootstrap.group (groupOf (tokenAt 2)) :=
    includes_enclosed (item (alternativesOf _)) ⟨"alternatives", _⟩ group legal_group inside
  refine includes_seq legal_innerToken legal_token (.cons ?_ (.cons (fun w mem => mem) .nil))
  refine includes_oneOf atom legal_atom (by simp) (by simp) ?_
  have plain : Includes literal anyLiteral := fun w mem => language_anyLiteral ▸ mem
  simpa using ⟨.inl enclosed, .inr plain⟩

/-! ### Tokens of a value -/

section

variable {t : Rule} {pieces : List (List Scalar × List Scalar)} {first w : List Scalar}

theorem head?_joined (gaps : ∀ piece ∈ pieces, piece.1 ≠ [] ∧ ∀ s ∈ piece.1, IsSpace s) :
    ∀ s ∈ (joined pieces).head?, s.code ∈ stops := by
  cases pieces with
  | nil => nofun
  | cons piece pieces =>
    obtain ⟨full, blanks⟩ := gaps piece (List.mem_cons_self ..)
    obtain ⟨s, more, eq⟩ := List.exists_cons_of_ne_nil full
    intro x here
    rw [joined, List.flatMap_cons, eq] at here
    cases here
    obtain code | code := blanks s (eq ▸ List.mem_cons_self ..) <;> simp [stops, code]

/-- A rule for tokens cuts a list of tokens into the tokens. By induction on them. -/
theorem cuts_joined (free : t.expr.isFree = true) (apart : Apart t) (delimited : Delimited stops t)
    (gaps : ∀ piece ∈ pieces, piece.1 ≠ [] ∧ ∀ s ∈ piece.1, IsSpace s)
    (words : ∀ piece ∈ pieces, piece.2 ∈ t.expr.language) : t.expr.Cuts (joined pieces) pieces := by
  induction pieces with
  | nil => exact .done (refuses_of_apart free apart nofun)
  | cons piece pieces ih =>
    obtain ⟨gap, word⟩ := piece
    obtain ⟨here, others⟩ := List.forall_mem_cons.1 gaps
    obtain ⟨mem, later⟩ := List.forall_mem_cons.1 words
    have full : word ≠ [] := by
      obtain ⟨s, more, rfl, -⟩ := apart word mem
      nofun
    have cut : t.expr.Cuts (gap ++ (word ++ joined pieces)) ((gap, word) :: pieces) :=
      .next (fun tail sub some_char => ?_) full (delimited word mem _ (head?_joined others)) (ih others later)
    · rwa [joined, List.flatMap_cons, List.append_assoc]
    · refine refuses_of_apart free apart fun s head => ?_
      obtain ⟨x, more, rfl⟩ := List.exists_cons_of_ne_nil some_char
      cases head
      obtain code | code := here.2 s (sub.subset (List.mem_cons_self ..)) <;> simp [stops, code]

/-- A rule for tokens cuts a text that starts with a token into the tokens. -/
theorem cuts_tokens (free : t.expr.isFree = true) (apart : Apart t) (delimited : Delimited stops t)
    (gaps : ∀ piece ∈ pieces, piece.1 ≠ [] ∧ ∀ s ∈ piece.1, IsSpace s)
    (words : ∀ piece ∈ ([], first) :: pieces, piece.2 ∈ t.expr.language) :
    t.expr.Cuts (first ++ joined pieces) (([], first) :: pieces) := by
  obtain ⟨mem, later⟩ := List.forall_mem_cons.1 words
  have full : first ≠ [] := by
    obtain ⟨s, more, eq, -⟩ := apart first mem
    simp [eq]
  exact .here full (delimited first mem _ (head?_joined gaps)) (cuts_joined free apart delimited gaps later)

end

/-! ### Bars -/

/-- True of a bar outside of quotes and of groups. -/
def isBar : Mode × Nat → Nat → Bool
  | (.plain, 0), code => code == 124
  | _, _ => false

/-- How many bars a reader of brackets meets outside of quotes and of groups. -/
def bars (state : Mode × Nat) : List Scalar → Nat
  | [] => 0
  | s :: w =>
      let later := match step maxDepth state s.code with
        | some state' => bars state' w
        | none => 0
      if isBar state s.code then later + 1 else later

section

variable {state state' : Mode × Nat} {s : Scalar} {u v w : List Scalar} {limit mark : Nat} {set : CharSet}

theorem bars_cons (next : step maxDepth state s.code = some state') (other : isBar state s.code = false) :
    bars state (s :: w) = bars state' w := by
  rw [bars, next]
  simp [other]

theorem bars_singleton (other : isBar state s.code = false) : bars state [s] = 0 := by
  rw [bars, other]
  cases step maxDepth state s.code <;> rfl

theorem bars_append (read : scan maxDepth state u = some state') :
    bars state (u ++ v) = bars state u + bars state' v := by
  induction u generalizing state with
  | nil =>
    cases read
    simp [bars]
  | cons s u ih =>
    rw [scan_cons] at read
    obtain ⟨next, stepped, read⟩ := Option.bind_eq_some_iff.1 read
    rw [List.cons_append, bars, bars, stepped]
    dsimp only
    rw [ih read]
    split <;> omega

/-- Inside of a group there is no bar outside of groups. By induction on the text. -/
theorem bars_inside {mode : Mode} {opened : Nat} (read : scan limit (mode, opened) w = some state)
    (le : limit + 1 ≤ maxDepth) : bars (mode, opened + 1) w = 0 := by
  induction w generalizing mode opened with
  | nil => rfl
  | cons s w ih =>
    rw [scan_cons] at read
    obtain ⟨⟨mode', opened'⟩, stepped, read⟩ := Option.bind_eq_some_iff.1 read
    have off : isBar (mode, opened + 1) s.code = false := by cases mode <;> rfl
    rw [bars_cons (step_add le stepped) off]
    exact ih read

/-- True of a closed text without bars outside of quotes and of groups. -/
structure Solid (w : List Scalar) : Prop where
  closed : Closed maxDepth w
  bars : bars (.plain, 0) w = 0

theorem solid_nil : Solid [] := ⟨closed_nil, rfl⟩

theorem Solid.append (hu : Solid u) (hv : Solid v) : Solid (u ++ v) where
  closed := hu.closed.append hv.closed
  bars := by rw [bars_append hu.closed, hu.bars, hv.bars]

/-- Solid pieces one after another. -/
theorem solid_flatten {pieces : List (List Scalar)} (h : ∀ piece ∈ pieces, Solid piece) :
    Solid pieces.flatten := by
  induction pieces with
  | nil => exact solid_nil
  | cons piece rest ih =>
    obtain ⟨here, others⟩ := List.forall_mem_cons.1 h
    exact here.append (ih others)

theorem solid_of_codes (h : ∀ s ∈ w, s.code ∉ brackets ∧ s.code ≠ 124) : Solid w := by
  refine ⟨closed_of_codes fun s mem => (h s mem).1, ?_⟩
  induction w with
  | nil => rfl
  | cons s w ih =>
    obtain ⟨⟨plain, other⟩, others⟩ := List.forall_mem_cons.1 h
    rw [bars_cons (step_plain plain) (by simpa [isBar] using other)]
    exact ih others

theorem solid_quoted (plain : IsInside mark set) (isMark : mark = 34 ∨ mark = 39)
    (mem : w ∈ (quotedExpr mark set).language) : Solid w := by
  refine ⟨closed_quoted plain isMark mem, ?_⟩
  obtain ⟨left, inside, right, rfl, opens, closes, mem⟩ := mem_quotedExpr.1 mem
  obtain ⟨pieces, -, rfl, all⟩ := mem_multiples.1 mem
  have piece_none : ∀ piece ∈ (insideExpr set).language, bars (.quoted mark, 0) piece = 0 := by
    intro piece mem
    obtain ⟨s, rfl, -⟩ | ⟨s, s', rfl, code, -⟩ := mem_insideExpr.1 mem
    · exact bars_singleton rfl
    · have escape : step maxDepth (.quoted mark, 0) s.code = some (.escaped mark, 0) := by
        simp only [step, code]
        rw [if_neg (by omega), if_neg (by omega), if_pos trivial]
      exact (bars_cons escape rfl).trans (bars_singleton rfl)
  have inside : scan maxDepth (.quoted mark, 0) pieces.flatten = some (.quoted mark, 0) ∧
      bars (.quoted mark, 0) pieces.flatten = 0 := by
    clear * - plain isMark all piece_none
    induction pieces with
    | nil => exact ⟨rfl, rfl⟩
    | cons piece rest ih =>
      obtain ⟨here, others⟩ := List.forall_mem_cons.1 all
      have read : scan maxDepth (.quoted mark, 0) piece = some (.quoted mark, 0) :=
        scan_inside plain (by omega) here
      rw [List.flatten_cons, scan_append, bars_append read, read, piece_none piece here, Nat.zero_add]
      exact ih others
  have enter : step maxDepth (.plain, 0) left.code = some (.quoted mark, 0) := by
    simp only [step, opens]
    rw [if_neg (by omega), if_neg (by omega), if_pos isMark]
  have other : isBar (.plain, 0) left.code = false := by
    simp only [isBar, beq_eq_false_iff_ne]
    omega
  rw [bars_cons enter other, bars_append inside.1, inside.2, bars_singleton rfl]

theorem solid_enclosed (closed : Closed 3 w) {left right : Scalar} (opens : left.code = 40)
    (closes : right.code = 41) : Solid (left :: (w ++ [right])) := by
  refine ⟨closed.enclosed opens closes, ?_⟩
  have enter : step maxDepth (.plain, 0) left.code = some (.plain, 0 + 1) := by simp [step, opens, maxDepth]
  have read : scan maxDepth (.plain, 0 + 1) w = some (.plain, 0 + 1) := closed.scan (by decide)
  rw [bars_cons enter (by simp [isBar, opens]), bars_append read, bars_inside closed (by decide),
    bars_singleton rfl]

/-- True of a rule whose texts are all solid. -/
def AllSolid (r : Rule) : Prop := ∀ w ∈ r.expr.language, Solid w

theorem AllSolid.seq {entries : List (Entry Rule)} (legal : Legal (seq entries))
    (solid : ∀ e ∈ entries, AllSolid e.rule) : AllSolid (seq entries) := by
  intro w mem
  obtain ⟨pieces, all, rfl⟩ := (mem_seq legal).1 mem
  refine solid_flatten fun piece here => ?_
  obtain ⟨e, entry, mem⟩ := exists_of_forall₂ all.flip here
  exact solid e entry piece mem

end

theorem allSolid_literal : AllSolid literal := by
  intro w mem
  obtain mem | mem | mem := mem_literal.1 mem
  · rw [expr_quotedText] at mem
    exact solid_quoted isInside_text (.inl rfl) mem
  · rw [expr_quotedPattern] at mem
    exact solid_quoted isInside_pattern (.inr rfl) mem
  · refine solid_of_codes fun s here => ?_
    have other := (contains_bareSet s).1 ((mem_bare.1 mem).2 s here)
    simp [brackets] at other ⊢
    omega

theorem allSolid_optSuffix : AllSolid optSuffix := by
  intro w mem
  obtain rfl | mem := mem_optSuffix.1 mem
  · exact solid_nil
  · obtain ⟨sign, here, codes⟩ := mem_suffix.1 mem
    have plain : ∀ sign ∈ suffixes, ∀ code ∈ sign.map UInt8.toNat, code ∉ brackets ∧ code ≠ 124 := by
      decide
    exact solid_of_codes fun s mem => plain sign here s.code (codes ▸ List.mem_map_of_mem mem)

theorem allSolid_group : AllSolid group := by
  intro w mem
  obtain ⟨left, before, middle, after, right, rfl, opens, first, here, last, closes⟩ :=
    (mem_enclosed legal_group).1 mem
  have inside : Closed 3 (before ++ (middle ++ after)) :=
    (allClosed_optSpace before (mem_optSpace.2 first)).append
      ((allClosed_alternatives middle here).append (allClosed_optSpace after (mem_optSpace.2 last)))
  simpa using solid_enclosed inside opens closes

theorem allSolid_token : AllSolid token := by
  have atom : AllSolid atom := fun w mem => by
    have kinds : w ∈ group.expr.language ∨ w ∈ literal.expr.language := by
      simpa using (mem_oneOf legal_atom (by simp)).1 mem
    exact kinds.elim (allSolid_group w) (allSolid_literal w)
  exact .seq legal_token (by simpa using ⟨atom, allSolid_optSuffix⟩)

theorem allSolid_innerToken : AllSolid innerToken := fun w mem => allSolid_token w (includes_token w mem)

theorem allSolid_sequence : AllSolid (sequenceOf innerToken) := by
  intro w mem
  obtain ⟨first, pieces, rfl, one, all⟩ := (mem_listOf (legal_of_modest modest_sequence (by decide))).1 mem
  refine (allSolid_innerToken first one).append ?_
  rw [joined, List.flatMap_def]
  refine solid_flatten (List.forall_mem_map.2 fun piece here => ?_)
  refine .append (solid_of_codes fun s mem => ?_) (allSolid_innerToken _ (all piece here).2)
  obtain code | code := (mem_space.1 (all piece here).1).2 s mem <;> simp [code, brackets]

/-- A bar among blanks is one bar. -/
theorem bars_barred {bar w : List Scalar} (mem : bar ∈ barred.expr.language) :
    bars (.plain, 0) (bar ++ w) = bars (.plain, 0) w + 1 := by
  obtain ⟨before, s, after, rfl, first, code, last⟩ := mem_barred.1 mem
  have blanks {w : List Scalar} (all : ∀ s ∈ w, IsSpace s) : Solid w := solid_of_codes fun s mem => by
    obtain code | code := all s mem <;> simp [code, brackets]
  have plain : step maxDepth (.plain, 0) s.code = some (.plain, 0) :=
    step_plain (by simp [code, brackets])
  rw [List.append_assoc, bars_append (blanks first).closed, (blanks first).bars, List.cons_append, bars,
    plain]
  simp [isBar, code, bars_append (blanks last).closed, (blanks last).bars]

/-! ### Alternatives -/

section

variable {first w : List Scalar} {others : List (List Scalar × List Scalar)}

theorem legal_sequence : Legal (sequenceOf innerToken) := legal_of_modest modest_sequence (by decide)

theorem mem_sequence_of_mem (mem : w ∈ innerToken.expr.language) :
    w ∈ (sequenceOf innerToken).expr.language :=
  (mem_listOf legal_sequence).2 ⟨w, [], by simp [joined], mem, nofun⟩

theorem mem_sequence_append (one : first ∈ (sequenceOf innerToken).expr.language) {gap : List Scalar}
    (blanks : gap ∈ space.expr.language) (mem : w ∈ innerToken.expr.language) :
    first ++ (gap ++ w) ∈ (sequenceOf innerToken).expr.language := by
  obtain ⟨start, pieces, rfl, one, all⟩ := (mem_listOf legal_sequence).1 one
  refine (mem_listOf legal_sequence).2 ⟨start, pieces ++ [(gap, w)], by simp [joined], one, ?_⟩
  exact List.forall_mem_append.2 ⟨all, List.forall_mem_singleton.2 ⟨blanks, mem⟩⟩

/-- Alternatives are a first sequence and others, each after a bar. By induction on the tokens after the
    first sequence. -/
theorem exists_of_mem_alternatives (mem : w ∈ (alternativesOf innerToken).expr.language) :
    ∃ first others, w = first ++ joined others ∧ first ∈ (sequenceOf innerToken).expr.language ∧
      ∀ other ∈ others, other.1 ∈ barred.expr.language ∧
        other.2 ∈ (sequenceOf innerToken).expr.language := by
  obtain ⟨first, pieces, rfl, one, all⟩ :=
    (mem_listOf (legal_of_modest modest_alternatives (by decide))).1 mem
  replace one := mem_sequence_of_mem one
  clear mem
  induction pieces generalizing first with
  | nil => exact ⟨first, [], rfl, one, nofun⟩
  | cons piece pieces ih =>
    obtain ⟨gap, word⟩ := piece
    obtain ⟨⟨between, word_mem⟩, later⟩ := List.forall_mem_cons.1 all
    have split : joined ((gap, word) :: pieces) = gap ++ (word ++ joined pieces) := by simp [joined]
    obtain bar | blanks := mem_separator.1 between
    · obtain ⟨next, others, eq, next_mem, known⟩ := ih word later (mem_sequence_of_mem word_mem)
      refine ⟨first, (gap, next) :: others, ?_, one, List.forall_mem_cons.2 ⟨⟨bar, next_mem⟩, known⟩⟩
      rw [split, eq]
      simp [joined]
    · obtain ⟨next, others, eq, known⟩ := ih _ later (mem_sequence_append one blanks word_mem)
      refine ⟨next, others, ?_, known⟩
      rw [split, ← eq]
      simp

/-- Sequences with the bars after them. -/
def ended (first : List Scalar) : List (List Scalar × List Scalar) → List (List Scalar)
  | [] => [first]
  | (bar, next) :: others => (first ++ bar) :: ended next others

theorem length_ended (first : List Scalar) : (ended first others).length = others.length + 1 := by
  induction others generalizing first with
  | nil => rfl
  | cons other others ih => rw [ended, List.length_cons, ih, List.length_cons]

theorem flatten_ended : (ended first others).flatten = first ++ joined others := by
  induction others generalizing first with
  | nil => simp [ended, joined]
  | cons other others ih =>
    rw [ended, List.flatten_cons, ih, joined, joined, List.flatMap_cons]
    simp

theorem bars_alternatives (one : first ∈ (sequenceOf innerToken).expr.language)
    (all : ∀ other ∈ others, other.1 ∈ barred.expr.language ∧
      other.2 ∈ (sequenceOf innerToken).expr.language) :
    bars (.plain, 0) (first ++ joined others) = others.length := by
  induction others generalizing first with
  | nil =>
    rw [joined, List.flatMap_nil, List.append_nil]
    exact (allSolid_sequence first one).bars
  | cons other others ih =>
    obtain ⟨⟨bar, next⟩, later⟩ := List.forall_mem_cons.1 all
    have solid := allSolid_sequence first one
    rw [bars_append solid.closed, solid.bars, Nat.zero_add, joined, List.flatMap_cons, List.append_assoc,
      bars_barred bar, ← joined, ih next later, List.length_cons]

theorem apart_alternative : Apart alternative := by
  refine apart_seq legal_alternative fun w mem => ?_
  rw [show (leaf (sequenceOf innerToken)).expr.language = _ from language_sequence] at mem
  exact apart_seq legal_sequence apart_innerToken w mem

/-- The rule for alternatives takes a sequence and the bar after it. -/
theorem munches_ended {bar : List Scalar} {s : Scalar} {more : List Scalar}
    (one : first ∈ (sequenceOf innerToken).expr.language) (mem : bar ∈ barred.expr.language)
    (other : s.code ∉ stops) : alternative.expr.Munches (first ++ bar) (s :: more) := by
  obtain ⟨before, b, after, rfl, blanks, code, blanks'⟩ := mem_barred.1 mem
  have munched : Munched [⟨"sequence", leaf (sequenceOf innerToken)⟩, item optSpace,
      item (optional (text "|")), item optSpace] [first, before, [b], after] (s :: more) := by
    refine .cons (munches_sequence (language_sequence ▸ one) ?_) (.cons (munches_optSpace blanks ?_)
      (.cons (munches_optional legal_bar (munches_text (by decide) ?_))
        (.cons (munches_optSpace blanks' ?_) .nil)))
    · refine ⟨before, b :: (after ++ s :: more), by simp, blanks, ?_⟩
      rintro _ ⟨⟩
      simp [code]
    · rintro _ ⟨⟩ (blank | blank) <;> omega
    · rw [List.map_singleton, code]
      decide
    · rintro _ ⟨⟩
      exact not_isSpace_of_stops other
  have whole : alternative.expr.Munches _ _ := munches_seq legal_alternative munched
  simpa using whole

theorem munches_last (one : first ∈ (sequenceOf innerToken).expr.language) :
    alternative.expr.Munches first [] := by
  have munched : Munched [⟨"sequence", leaf (sequenceOf innerToken)⟩, item optSpace,
      item (optional (text "|")), item optSpace] [first, [], [], []] [] := by
    refine .cons (munches_sequence (language_sequence ▸ one) ⟨[], [], rfl, nofun, nofun⟩)
      (.cons (munches_optSpace nofun nofun) (.cons (munches_optional_nil legal_bar ?_)
        (.cons (munches_optSpace nofun nofun) .nil)))
    exact refuses_text (by decide) (by decide)
  have whole : alternative.expr.Munches _ _ := munches_seq legal_alternative munched
  simpa using whole

theorem cuts_ended (one : first ∈ (sequenceOf innerToken).expr.language)
    (all : ∀ other ∈ others, other.1 ∈ barred.expr.language ∧
      other.2 ∈ (sequenceOf innerToken).expr.language) :
    alternative.expr.Cuts (first ++ joined others) ((ended first others).map fun part => ([], part)) := by
  have full {first : List Scalar} (one : first ∈ (sequenceOf innerToken).expr.language) : first ≠ [] := by
    obtain ⟨s, more, rfl, -⟩ := apart_seq legal_sequence apart_innerToken first one
    nofun
  induction others generalizing first with
  | nil =>
    have cut := Expr.Cuts.here (full one) (munches_last one)
      (.done (refuses_of_apart (legal_alternative.isFree avoids_alternative) apart_alternative nofun))
    simpa [joined, ended] using cut
  | cons other others ih =>
    obtain ⟨bar, next⟩ := other
    obtain ⟨⟨mem, next_mem⟩, later⟩ := List.forall_mem_cons.1 all
    obtain ⟨s, more, eq, other⟩ := apart_seq legal_sequence apart_innerToken next next_mem
    have rest : next ++ joined others = s :: (more ++ joined others) := by simp [eq]
    have cut := Expr.Cuts.here (List.append_ne_nil_of_left_ne_nil (full one) bar)
      (rest ▸ munches_ended one mem other) (ih next_mem later)
    simpa [joined, ended] using cut

end

end Bootstrap

end Rulebook

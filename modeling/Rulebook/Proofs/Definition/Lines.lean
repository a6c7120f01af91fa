import Rulebook.Proofs.Definition.Grammar
import Rulebook.Proofs.Pattern.Lines

/-!
# The lines that the grammar of definitions takes

A comment and a definition are whole lines, so that the grammar of definitions matches a text line by
line.
-/

namespace Rulebook

open Pattern Bytes

namespace Rule

/-- True if a rule matches the whole of a text. -/
def recognises (r : Rule) (t : Bytes) : Bool :=
  match r.accepts t with
  | .ok matched => matched
  | .error _ => false

theorem recognises_iff {r : Rule} {t : Bytes} : r.recognises t = true ↔ r.Matches t := by
  unfold recognises Matches
  cases r.accepts t <;> simp

theorem Accepted.accepts_eq {r : Rule} (accepted : Accepted r) (t : Bytes) :
    r.accepts t = .ok (r.recognises t) := by
  obtain ⟨c, compiled⟩ := accepted
  simp [recognises, accepts, Matcher.accepts, compiled_matcher, compiled]

end Rule

namespace Bootstrap

open Rule

/-! ### The frame of a line -/

/-- True of a line break, and of nothing at all, which ends the last line. -/
def IsBreak (ending : List Scalar) : Prop := ending.map Scalar.code ∈ [[13, 10], [10], []]

theorem leads_lineStart {c d : Cursor} :
    lineStart.expr.Leads c d ↔ c.holds .beginLine = true ∧ d = c := by
  rw [show lineStart.expr = _ from (simple_of_getElem 1 rfl).expr_eq tag]
  exact Expr.leads_test

theorem leads_single {code : Nat} {c d : Cursor} :
    (Expr.one (.single code)).Leads c d ↔ ∃ s, s.code = code ∧ c.Spans [s] d := by
  rw [Expr.leads_one]
  have contains (n : Nat) : (CharSet.single code).contains n = true ↔ n = code := by
    simp only [CharSet.single, CharSet.contains, List.any_cons, List.any_nil, Bool.or_false,
      Bool.and_eq_true, decide_eq_true_eq]
    omega
  simp only [contains, Cursor.past_eq_advance]
  constructor
  · rintro ⟨s, rest, here, code, rfl⟩
    exact ⟨s, code, here, rfl⟩
  · rintro ⟨s, code, here, place⟩
    exact ⟨s, _, here, code, place⟩

theorem leads_lineEnd {c d : Cursor} :
    lineEnd.expr.Leads c d ↔
      ∃ ending, IsBreak ending ∧ c.Spans ending d ∧ (ending = [] → d.rest = []) := by
  rw [show lineEnd.expr = _ from (simple_of_getElem 2 rfl).expr_eq tag]
  simp only [Expr.leads_alt, Expr.leads_cat, Expr.leads_opt, leads_single, Expr.leads_test]
  constructor
  · rintro (⟨e, ⟨cr, code, before⟩ | rfl, lf, code', after⟩ | ⟨last, rfl⟩)
    · exact ⟨[cr] ++ [lf], by simp [IsBreak, code, code'], Cursor.spans_append.2 ⟨e, before, after⟩,
        by simp⟩
    · exact ⟨[lf], by simp [IsBreak, code'], after, by simp⟩
    · exact ⟨[], by simp [IsBreak], Cursor.spans_nil.2 rfl, fun _ => by simpa [Cursor.holds] using last⟩
  · rintro ⟨ending, isBreak, spans, last⟩
    simp only [IsBreak, List.mem_cons, List.not_mem_nil, or_false, List.map_eq_nil_iff] at isBreak
    obtain both | single | rfl := isBreak
    · obtain ⟨cr, tail, rfl, code, eq⟩ := List.map_eq_cons_iff.1 both
      obtain ⟨lf, rfl, code'⟩ := List.map_eq_singleton_iff.1 eq
      obtain ⟨e, before, after⟩ := Cursor.spans_append.1 (show Cursor.Spans c ([cr] ++ [lf]) d from spans)
      exact .inl ⟨e, .inl ⟨cr, code, before⟩, lf, code', after⟩
    · obtain ⟨lf, rfl, code⟩ := List.map_eq_singleton_iff.1 single
      exact .inl ⟨c, .inr rfl, lf, code, spans⟩
    · obtain rfl := Cursor.spans_nil.1 spans
      exact .inr ⟨by simp [Cursor.holds, last rfl], rfl⟩

/-- A line between its start and its end, in which certain words may stand. -/
structure Framed (r : Rule) (words : Language Scalar) : Prop where
  leads : ∀ {c d}, r.expr.Leads c d ↔ c.holds .beginLine = true ∧ ∃ w ∈ words, ∃ ending,
    IsBreak ending ∧ c.Spans (w ++ ending) d ∧ (ending = [] → d.rest = [])
  some_char : ∀ w ∈ words, w ≠ []
  whole : ∀ w ∈ words, ∀ s ∈ w, s.code ≠ 10

variable {r : Rule} {words : Language Scalar}

theorem IsBreak.eq_nil_or {ending : List Scalar} (h : IsBreak ending) :
    ending = [] ∨
      ∃ (front : List Scalar) (last : Scalar), ending = front ++ [last] ∧ last.code = 10 ∧
        ∀ s ∈ front, s.code ≠ 10 := by
  simp only [IsBreak, List.mem_cons, List.not_mem_nil, or_false, List.map_eq_nil_iff] at h
  obtain both | single | rfl := h
  · obtain ⟨cr, tail, rfl, code, eq⟩ := List.map_eq_cons_iff.1 both
    obtain ⟨lf, rfl, code'⟩ := List.map_eq_singleton_iff.1 eq
    exact .inr ⟨[cr], lf, rfl, code', by simp [code]⟩
  · obtain ⟨lf, rfl, code⟩ := List.map_eq_singleton_iff.1 single
    exact .inr ⟨[], lf, rfl, code, by simp⟩
  · exact .inl rfl

/-- Two ways to cut a list before the first of some elements are the same. -/
theorem append_cons_inj {α : Type} {p : α → Prop} {xs ys xs' ys' : List α} {a b : α}
    (eq : xs ++ a :: xs' = ys ++ b :: ys') (before : ∀ x ∈ xs, ¬ p x) (before' : ∀ y ∈ ys, ¬ p y)
    (first : p a) (first' : p b) : xs = ys ∧ a = b ∧ xs' = ys' := by
  induction xs generalizing ys with
  | nil =>
    cases ys with
    | nil =>
      cases eq
      exact ⟨rfl, rfl, rfl⟩
    | cons y ys =>
      cases eq
      exact absurd first (before' a (by simp))
  | cons x xs ih =>
    cases ys with
    | nil =>
      cases eq
      exact absurd first' (before b (by simp))
    | cons y ys =>
      obtain ⟨rfl, tail⟩ := List.cons.inj eq
      obtain ⟨rfl, rest⟩ := ih tail (fun x mem => before x (List.mem_cons_of_mem _ mem))
        fun y mem => before' y (List.mem_cons_of_mem _ mem)
      exact ⟨rfl, rest⟩

/-- The words of a line and its line break end where the line ends. -/
theorem Framed.line_eq (h : Framed r words) {l : Bytes} {rest : List Bytes}
    (lines : Lines (l :: rest)) {w ending after : List Scalar} (mem : w ∈ words)
    (isBreak : IsBreak ending) (last : ending = [] → after = [])
    (eq : l.scalars ++ scalars rest.flatten = (w ++ ending) ++ after) :
    l.scalars = w ++ ending ∧ after = scalars rest.flatten := by
  cases lines with
  | last _ whole =>
    rw [List.flatten_nil, scalars_nil, List.append_nil] at *
    obtain rfl | ⟨front, lf, rfl, code, -⟩ := isBreak.eq_nil_or
    · rw [last rfl] at eq ⊢
      exact ⟨by simpa using eq, rfl⟩
    · refine absurd (mem_of_code_eq (a := 10) (by decide) (c := lf) code ?_) whole
      rw [eq]
      simp
  | @cons l _ whole =>
    rw [scalars_append_ascii l (by decide) [], scalars_cons_ascii (by decide), scalars_nil] at *
    have none : ∀ s ∈ l.scalars, s.code ≠ 10 :=
      fun s mem code => whole (mem_of_code_eq (a := 10) (by decide) code mem)
    obtain rfl | ⟨front, lf, rfl, code, none'⟩ := isBreak.eq_nil_or
    · rw [last rfl, List.append_nil, List.append_nil] at eq
      exact absurd rfl (h.whole w mem (Scalar.ascii 10) (eq ▸ by simp))
    · have before : ∀ s ∈ w ++ front, s.code ≠ 10 := fun s here =>
        (List.mem_append.1 here).elim (h.whole w mem s) (none' s)
      have cut : l.scalars ++ Scalar.ascii 10 :: scalars rest.flatten =
          (w ++ front) ++ lf :: after := by simpa using eq
      obtain ⟨same, rfl, rfl⟩ :=
        append_cons_inj (p := fun s : Scalar => s.code = 10) cut none before rfl code
      refine ⟨?_, rfl⟩
      rw [same, List.append_assoc]

/-- What a framed rule takes of a line and what follows it is the line. -/
theorem Framed.leads_line (h : Framed r words) {l : Bytes} {rest : List Bytes}
    (lines : Lines (l :: rest)) {c d : Cursor} (begins : c.holds .beginLine = true)
    (text : c.rest = l.scalars ++ scalars rest.flatten) :
    r.expr.Leads c d ↔ (∃ w ∈ words, ∃ ending, IsBreak ending ∧ l.scalars = w ++ ending) ∧
      d = c.advance l.scalars (scalars rest.flatten) := by
  rw [h.leads]
  constructor
  · rintro ⟨-, w, mem, ending, isBreak, ⟨eq, place⟩, last⟩
    obtain ⟨whole, after⟩ := h.line_eq lines mem isBreak last (text.symm.trans eq)
    refine ⟨⟨w, mem, ending, isBreak, whole⟩, ?_⟩
    rw [whole, ← after]
    exact place
  · rintro ⟨⟨w, mem, ending, isBreak, eq⟩, rfl⟩
    refine ⟨begins, w, mem, ending, isBreak, ⟨eq ▸ text, eq ▸ rfl⟩, ?_⟩
    rintro rfl
    cases lines with
    | last => rfl
    | @cons l _ whole =>
      refine absurd rfl (h.whole w mem (Scalar.ascii 10) ?_)
      rw [List.append_nil, scalars_append_ascii l (by decide) []] at eq
      rw [← eq, scalars_cons_ascii (by decide)]
      simp

/-- A framed rule matches the lines that it takes. -/
theorem Framed.matches_iff (h : Framed r words) (sound : Sound r) (kind : r.kind ≠ .regex)
    (accepted : Accepted r) {t : Bytes} :
    r.Matches t ↔ ∃ w ∈ words, ∃ ending, IsBreak ending ∧ t.scalars = w ++ ending := by
  rw [sound.matches_iff_leads kind accepted]
  constructor
  · rintro ⟨d, stop, leads⟩
    obtain ⟨-, w, mem, ending, isBreak, ⟨eq, -⟩, -⟩ := h.leads.1 leads
    exact ⟨w, mem, ending, isBreak, by simpa [stop, Cursor.start] using eq⟩
  · rintro ⟨w, mem, ending, isBreak, eq⟩
    refine ⟨Cursor.advance (.start t) (w ++ ending) [], rfl,
      h.leads.2 ⟨rfl, w, mem, ending, isBreak, ⟨?_, rfl⟩, fun _ => rfl⟩⟩
    rw [Cursor.rest_advance, List.append_nil]
    exact eq

theorem Framed.takesLines (h : Framed r words) (sound : Sound r) (kind : r.kind ≠ .regex)
    (accepted : Accepted r) : r.expr.TakesLines r.recognises where
  begins leads := (h.leads.1 leads).1
  some_char leads none := by
    obtain ⟨-, w, mem, ending, -, ⟨eq, -⟩, -⟩ := h.leads.1 leads
    rw [none] at eq
    simp [h.some_char w mem] at eq
  line lines begins text := by
    rw [h.leads_line lines begins text, recognises_iff, h.matches_iff sound kind accepted]

/-- What stands between the start and the end of a line is framed by them, if it takes no line
    breaks. -/
theorem framed_seq {middle : List (Entry Rule)} {rule : Rule}
    (eq : rule = seq (item lineStart :: (middle ++ [item lineEnd]))) (sound : Sound rule)
    (read : rule.IsRead) (valid : TextsUtf8 rule) (avoids : ∀ e ∈ middle, Avoids 10 e.rule)
    (some_char : ∀ w ∈ (Expr.concat (middle.map exprOf)).language, w ≠ []) :
    Framed rule (Expr.concat (middle.map exprOf)).language := by
  subst eq
  have reads := (read.combine sound.even).1
  have taken : (Expr.concat (middle.map exprOf)).avoids 10 = true := by
    rw [Expr.avoids_concat, List.all_map, List.all_eq_true]
    intro e mem
    have mem' : e ∈ item lineStart :: (middle ++ [item lineEnd]) := by simp [mem]
    rw [Function.comp_apply, avoids_exprOf]
    exact (sound.entry (mem_reach mem')).avoids_expr (reads e mem') (valid.entry mem') (avoids e mem)
  refine ⟨fun {c d} => ?_, some_char, Expr.code_ne_of_mem_language taken⟩
  have cut : (item lineStart :: (middle ++ [item lineEnd])).map exprOf =
      [exprOf (item lineStart)] ++ (middle.map exprOf ++ [exprOf (item lineEnd)]) := by simp
  have first (e f : Cursor) : (exprOf (item lineStart)).Leads e f ↔
      e.holds .beginLine = true ∧ f = e := (leads_exprOf ..).trans leads_lineStart
  have last (e f : Cursor) : (exprOf (item lineEnd)).Leads e f ↔ ∃ ending, IsBreak ending ∧
      e.Spans ending f ∧ (ending = [] → f.rest = []) := (leads_exprOf ..).trans leads_lineEnd
  rw [seq, sound.leads_seq read valid, cut, Expr.leads_concat_append]
  simp only [Expr.leads_concat_append, Expr.concat, first, last,
    Expr.leads_of_free (Expr.isFree_of_avoids taken)]
  constructor
  · rintro ⟨e, ⟨begins, rfl⟩, f, ⟨w, mem, spans⟩, ending, isBreak, spans', stop⟩
    exact ⟨begins, w, mem, ending, isBreak, Cursor.spans_append.2 ⟨f, spans, spans'⟩, stop⟩
  · rintro ⟨begins, w, mem, ending, isBreak, spans, stop⟩
    obtain ⟨f, spans, spans'⟩ := Cursor.spans_append.1 spans
    exact ⟨c, ⟨begins, rfl⟩, f, ⟨w, mem, spans⟩, ending, isBreak, spans', stop⟩

/-! ### Words of a line -/

theorem flatten_singletons {pieces : List (List Scalar)} {p : Scalar → Prop}
    (h : ∀ piece ∈ pieces, ∃ s, piece = [s] ∧ p s) : ∀ s ∈ pieces.flatten, p s := by
  intro s mem
  obtain ⟨piece, here, mem⟩ := List.mem_flatten.1 mem
  obtain ⟨s', rfl, known⟩ := h piece here
  rw [List.mem_singleton.1 mem]
  exact known

theorem exists_singletons {w : List Scalar} {p : Scalar → Prop} (h : ∀ s ∈ w, p s) :
    ∃ pieces : List (List Scalar), w = pieces.flatten ∧ ∀ piece ∈ pieces, ∃ s, piece = [s] ∧ p s := by
  refine ⟨w.map fun s => [s], (List.flatMap_singleton' w).symm, fun piece mem => ?_⟩
  obtain ⟨s, here, rfl⟩ := List.mem_map.1 mem
  exact ⟨s, rfl, h s here⟩

/-- Blanks are spaces and tabs. -/
theorem mem_optSpace {w : List Scalar} :
    w ∈ optSpace.expr.language ↔ ∀ s ∈ w, s.code = 9 ∨ s.code = 32 := by
  have one (piece : List Scalar) : piece ∈ (item blank).rule.expr.language ↔
      ∃ s, piece = [s] ∧ (s.code = 9 ∨ s.code = 32) := by
    rw [show (item blank).rule.expr = _ from (simple_of_getElem 0 rfl).expr_eq tag]
    refine exists_congr fun s => and_congr_right fun _ => ?_
    simp [CharSet.contains]
    omega
  rw [optSpace, many, modest_optSpace.sound.mem_language_many (modest_isRead modest_optSpace
    (by decide)) modest_optSpace.plain.texts]
  simp only [one]
  constructor
  · rintro ⟨pieces, rfl, all⟩
    exact flatten_singletons all
  · exact exists_singletons

/-- A comment is anything but a line break. -/
theorem mem_content {w : List Scalar} :
    w ∈ (regex "[^\\r\\n]*").expr.language ↔ ∀ s ∈ w, s.code ≠ 10 ∧ s.code ≠ 13 := by
  have contains (s : Scalar) : CharSet.contains ⟨[(0, 9), (11, 12), (14, 1114111)]⟩ s.code = true ↔
      s.code ≠ 10 ∧ s.code ≠ 13 := by
    have high : s.code < 1114112 := by
      have := s.char.valid
      unfold UInt32.isValidChar Nat.isValidChar at this
      have : s.code = s.char.val.toNat := rfl
      omega
    simp [CharSet.contains]
    omega
  rw [show (regex _).expr = _ from (simple_of_getElem 8 rfl).expr_eq tag]
  refine mem_multiples.trans ?_
  constructor
  · rintro ⟨pieces, -, rfl, all⟩
    exact flatten_singletons fun piece mem => (all piece mem).imp fun s => And.imp_right (contains s).1
  · intro h
    obtain ⟨pieces, eq, all⟩ := exists_singletons h
    exact ⟨pieces, trivial, eq, fun piece mem =>
      (all piece mem).imp fun s => And.imp_right (contains s).2⟩

theorem mem_text {literal : Bytes} {w : List Scalar} :
    w ∈ (text literal).expr.language ↔ w.map Scalar.code = literal.scalars.map Scalar.code :=
  mem_language_textExpr

/-- A name starts with a letter or an underscore. -/
theorem mem_name {w : List Scalar} (mem : w ∈ name.expr.language) :
    ∃ s more, w = s :: more ∧ 65 ≤ s.code := by
  obtain ⟨pieces, all, rfl⟩ := (modest_name.sound.mem_language_seq
    (modest_isRead modest_name (by decide)) modest_name.plain.texts).1 mem
  obtain ⟨first, _, here, -, rfl⟩ := List.forall₂_cons_right_iff.1 all
  obtain ⟨e, mem, here⟩ := (modest_first.sound.mem_language_oneOf
    (modest_isRead modest_first (by decide)) modest_first.plain.texts (by simp)).1 here
  obtain rfl | rfl : e = item letter ∨ e = item underscore := by simpa using mem
  · rw [show (item letter).rule.expr = _ from (simple_of_getElem 3 rfl).expr_eq tag] at here
    obtain ⟨s, rfl, contains⟩ := here
    refine ⟨s, _, rfl, ?_⟩
    simp [CharSet.contains] at contains
    omega
  · have codes : first.map Scalar.code = [95] := mem_text.1 here
    obtain ⟨s, rfl, code⟩ := List.map_eq_singleton_iff.1 codes
    exact ⟨s, _, rfl, by omega⟩

/-! ### Comments and definitions -/

/-- What stands in a comment. -/
def commentMiddle : List (Entry Rule) :=
  [item optSpace, item (text "#"), ⟨"content", regex "[^\\r\\n]*"⟩]

/-- What stands in a definition. -/
def definitionMiddle : List (Entry Rule) :=
  [item optSpace, ⟨"name", name⟩, item optSpace, item (text "="), item optSpace, ⟨"value", value⟩,
    item optSpace, item (text ";"), item optSpace]

/-- A comment is made of blanks, the mark and the content. -/
theorem mem_commentMiddle {w : List Scalar} :
    w ∈ (Expr.concat (commentMiddle.map exprOf)).language ↔
      ∃ (blanks : List Scalar) (mark : Scalar) (content : List Scalar),
        w = blanks ++ mark :: content ∧
        (∀ s ∈ blanks, s.code = 9 ∨ s.code = 32) ∧ mark.code = 35 ∧
        ∀ s ∈ content, s.code ≠ 10 ∧ s.code ≠ 13 := by
  rw [mem_language_entries, commentMiddle]
  simp only [List.forall₂_cons_right_iff, List.forall₂_nil_right_iff]
  constructor
  · rintro ⟨_, ⟨blanks, _, before, ⟨mark, _, here, ⟨content, _, after, rfl, rfl⟩, rfl⟩, rfl⟩, rfl⟩
    have codes : mark.map Scalar.code = [35] := mem_text.1 here
    obtain ⟨mark, rfl, code⟩ := List.map_eq_singleton_iff.1 codes
    exact ⟨blanks, mark, content, by simp, mem_optSpace.1 before, code, mem_content.1 after⟩
  · rintro ⟨blanks, mark, content, rfl, before, code, after⟩
    have here : [mark] ∈ (text "#").expr.language := mem_text.2 (by
      rw [List.map_singleton, code]
      decide)
    exact ⟨[blanks, [mark], content], ⟨blanks, _, mem_optSpace.2 before, ⟨[mark], _, here,
      ⟨content, _, mem_content.2 after, rfl, rfl⟩, rfl⟩, rfl⟩, by simp⟩

/-- A definition is made of blanks, a name and other text. -/
theorem mem_definitionMiddle {w : List Scalar}
    (mem : w ∈ (Expr.concat (definitionMiddle.map exprOf)).language) :
    ∃ (blanks : List Scalar) (s : Scalar) (more : List Scalar), w = blanks ++ s :: more ∧
      (∀ s ∈ blanks, s.code = 9 ∨ s.code = 32) ∧ 65 ≤ s.code := by
  obtain ⟨pieces, all, rfl⟩ := mem_language_entries.1 mem
  obtain ⟨blanks, _, before, others, rfl⟩ := List.forall₂_cons_right_iff.1 all
  obtain ⟨name, more, here, -, rfl⟩ := List.forall₂_cons_right_iff.1 others
  obtain ⟨s, rest, rfl, code⟩ := mem_name here
  exact ⟨blanks, s, rest ++ more.flatten, by simp, mem_optSpace.1 before, code⟩

theorem framed_comment : Framed comment (Expr.concat (commentMiddle.map exprOf)).language := by
  refine framed_seq rfl modest_comment.sound (modest_isRead modest_comment (by decide))
    modest_comment.plain.texts ?_ fun w mem => ?_
  · simpa [commentMiddle, item] using ⟨avoids_optSpace (by decide), avoids_ascii "#" (by decide),
      avoids_of_getElem 8 rfl (by decide)⟩
  · obtain ⟨blanks, mark, content, rfl, -⟩ := mem_commentMiddle.1 mem
    simp

theorem framed_ruleEntry :
    Framed ruleEntry (Expr.concat (definitionMiddle.map exprOf)).language := by
  refine framed_seq rfl modest_ruleEntry.sound (modest_isRead modest_ruleEntry (by decide))
    modest_ruleEntry.plain.texts ?_ fun w mem => ?_
  · have blanks : Avoids 10 optSpace := avoids_optSpace (by decide)
    simpa [definitionMiddle, item] using ⟨blanks, avoids_name (by decide), blanks,
      avoids_ascii "=" (by decide), blanks, avoids_value, blanks, avoids_ascii ";" (by decide), blanks⟩
  · obtain ⟨blanks, s, more, rfl, -⟩ := mem_definitionMiddle mem
    simp

theorem accepted_comment : Accepted comment :=
  modest_comment.accepted (by decide) (by decide) (by decide)

theorem accepted_ruleEntry : Accepted ruleEntry :=
  modest_ruleEntry.accepted (by decide) (by decide) (by decide)

/-- No line is both a comment and a definition. -/
theorem not_recognises_both {l : Bytes} (isComment : comment.recognises l = true) :
    ruleEntry.recognises l = false := by
  by_contra both
  have both : ruleEntry.recognises l = true := by simpa using both
  rw [recognises_iff] at isComment both
  obtain ⟨w, mem, ending, isBreak, eq⟩ := (framed_comment.matches_iff modest_comment.sound
    (by simp [comment, seq, kind]) accepted_comment).1 isComment
  obtain ⟨w', mem', ending', isBreak', eq'⟩ := (framed_ruleEntry.matches_iff modest_ruleEntry.sound
    (by simp [ruleEntry, seq, kind]) accepted_ruleEntry).1 both
  obtain ⟨blanks, mark, content, rfl, before, code, -⟩ := mem_commentMiddle.1 mem
  obtain ⟨blanks', s, more, rfl, before', code'⟩ := mem_definitionMiddle mem'
  rw [eq] at eq'
  have cut : blanks ++ mark :: (content ++ ending) = blanks' ++ s :: (more ++ ending') := by
    simpa using eq'
  obtain ⟨-, rfl, -⟩ := append_cons_inj (p := fun s : Scalar => s.code ≠ 9 ∧ s.code ≠ 32) cut
    (fun s mem => by have := before s mem; omega) (fun s mem => by have := before' s mem; omega)
    (by omega) (by omega)
  omega

theorem takesLines_comment : comment.expr.TakesLines comment.recognises :=
  framed_comment.takesLines modest_comment.sound (by simp [comment, seq, kind]) accepted_comment

theorem takesLines_ruleEntry : ruleEntry.expr.TakesLines ruleEntry.recognises :=
  framed_ruleEntry.takesLines modest_ruleEntry.sound (by simp [ruleEntry, seq, kind])
    accepted_ruleEntry

end Bootstrap

end Rulebook

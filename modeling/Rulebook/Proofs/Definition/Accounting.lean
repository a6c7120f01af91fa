import Mathlib.Data.List.TakeWhile
import Rulebook.Proofs.Definition.Forms
import Rulebook.Proofs.Definition.Walk

/-!
# What each line is good for

A compilation that goes on after every failure accounts for every line exactly once: a blank line
reports nothing, a comment is reported as one, a definition is registered or fails, and any other line
fails (`Definition.compile_accounts`). What the lines report comes in the order of the lines.
-/

namespace Rulebook

open Bytes

namespace Definition

open Bootstrap (comment ruleEntry IsBlank IsComment IsNamed DefinitionAt)

variable {c : Context} {l : Bytes} {r : Registry}

/-! ### What a line of each form comes to -/

theorem noComment_of_blank (h : IsBlank l) : comment.recognises l = false := by
  by_contra taken
  obtain ⟨content, before, ending, rfl, -⟩ :=
    Bootstrap.recognises_comment_iff.1 (by simpa using taken)
  cases h _ (ascii_mem_scalars (a := 35) (by decide) (by simp))

theorem noEntry_of_blank (h : IsBlank l) : ruleEntry.recognises l = false := by
  by_contra taken
  have taken : ruleEntry.recognises l = true := by simpa using taken
  obtain ⟨t, n, v, built, -, parts⟩ := descend_definition taken
  obtain ⟨before, after, more, rfl, -⟩ := Bootstrap.isNamed_of_definition taken built parts.name_part
  cases h _ (ascii_mem_scalars (a := 61) (by decide) (by simp))

theorem isBlank_iff : (dropBlank l.scalars).isEmpty = true ↔ IsBlank l := by
  rw [List.isEmpty_iff, dropBlank, List.dropWhile_eq_nil_iff]
  rfl

theorem outcome_of_blank (c : Context) (h : IsBlank l) : outcome c l = .blank := by
  rw [outcome_other c (noComment_of_blank h) (noEntry_of_blank h), remainder, if_pos (isBlank_iff.2 h)]

theorem outcome_of_comment (c : Context) {content : Bytes} (h : IsComment l content) :
    outcome c l = .comment content := by
  have taken := Bootstrap.recognises_comment_iff.2 ⟨content, h⟩
  obtain ⟨t, built, -⟩ := descend_comment taken
  obtain ⟨part, here, text⟩ := h.content built
  rw [outcome_comment c taken built, here, Option.map_some, Option.getD_some, text]

/-- A definition is registered or fails. -/
theorem outcome_of_definition (at_ : c.At l) (taken : ruleEntry.recognises l = true) :
    (∃ title rule, IsNamed l title ∧ outcome c l = .defined title rule) ∨
      ∃ k e, outcome c l = .failed k (some e) := by
  obtain ⟨t, n, v, built, -, parts⟩ := descend_definition taken
  have named := Bootstrap.isNamed_of_definition taken built parts.name_part
  rw [outcome_definition c taken built parts.name_part parts.value_part]
  obtain ⟨i, name_offset, -⟩ := parts.name_at
  obtain ⟨j, value_offset, part, fits⟩ := parts.value_at
  rw [Nat.zero_add] at name_offset value_offset
  cases result : ruleOf c n v with
  | ok rule => exact .inl ⟨n.text, rule, named, rfl⟩
  | error h =>
    obtain ⟨e, rfl, placeless⟩ | ⟨k, e, -, high, -, rfl, -⟩ :=
      ruleOf_error at_ value_offset part result
    · exact .inr ⟨i, e, settle_placeless placeless name_offset⟩
    · exact .inr ⟨k, e, settle_errorAt at_ (by omega) e⟩

theorem outcome_of_other (c : Context) (some_char : ¬ IsBlank l)
    (noComment : ∀ content, ¬ IsComment l content) (noEntry : ¬ ruleEntry.Matches l) :
    outcome c l = .failed (blanks l).length none := by
  have comment : comment.recognises l = false := by
    by_contra taken
    obtain ⟨content, h⟩ := Bootstrap.recognises_comment_iff.1 (by simpa using taken)
    exact noComment content h
  have entry : ruleEntry.recognises l = false := by
    by_contra taken
    exact noEntry (Rule.recognises_iff.1 (by simpa using taken))
  rw [outcome_other c comment entry, remainder, if_neg (mt isBlank_iff.1 some_char)]

/-! ### Accounts -/

/-- What a line that starts at a position may report, and what it makes of the registry that is known
    there: nothing if it is blank, its content if it is a comment, its name or a failure on the line if
    it is a definition, and else a failure where its first character stands that is not blank. -/
structure Accounted (p : Position) (l : Bytes) (r : Registry) (events : List Event) (r' : Registry) :
    Prop where
  blank : IsBlank l → events = [] ∧ r' = r
  comment : ∀ content, IsComment l content → events = [.comment p content] ∧ r' = r
  definition : ruleEntry.Matches l →
    (∃ title rule, IsNamed l title ∧ r' = r.insert title rule ∧
      events = (if (r.get? title).isSome then [.redefining title] else []) ++
        [.defined title p.line rule.namedPattern]) ∨
    ∃ position cause, position.line = p.line ∧ r' = r ∧
      events = [.failure ⟨position, l.trim, some cause⟩]
  other : ¬ IsBlank l → (∀ content, ¬ IsComment l content) → ¬ ruleEntry.Matches l →
    let before := l.scalars.takeWhile (isBlank ·.char)
    events = [.failure ⟨⟨p.filename, p.offset + (ofScalars before).length, p.line,
      p.column + before.length⟩, l.trim, none⟩] ∧ r' = r

/-- Accounts for lines one after another, the first of which starts at an offset and bears a number. -/
inductive Accounts (filename : Bytes) :
    Nat → Nat → Registry → List Bytes → List Event → Registry → Prop where
  | nil {offset line : Nat} {r : Registry} : Accounts filename offset line r [] [] r
  | cons {offset line : Nat} {r next last : Registry} {l : Bytes} {rest : List Bytes}
      {now later : List Event} (here : Accounted ⟨filename, offset, line, 1⟩ l r now next)
      (others : Accounts filename (offset + l.length) (line + 1) next rest later last) :
      Accounts filename offset line r (l :: rest) (now ++ later) last

/-- Where the blanks of a line end. -/
theorem advance_blanks {rest : List Bytes} (lines : Lines (l :: rest)) (some_char : ¬ IsBlank l)
    (p : Position) :
    p.advance (blanks l) = ⟨p.filename, p.offset + (blanks l).length, p.line,
      p.column + (l.scalars.takeWhile (isBlank ·.char)).length⟩ := by
  have whole : 10 ∉ blanks l := by
    have inside := length_blanks_lt (Bool.eq_false_iff.2 (mt isBlank_iff.1 some_char))
    have front := lines.notMem_take inside
    rwa [take_blanks] at front
  have legible : Legible (l.scalars.takeWhile (isBlank ·.char)) := by
    have all := legible_scalars l
    rw [← List.takeWhile_append_dropWhile (p := fun s : Scalar => isBlank s.char) (l := l.scalars)]
      at all
    exact legible_of_append_left all
  have last : (blanks l).lastLine = blanks l := lastLine_whole whole
  have count : (blanks l).count 10 = 0 := List.count_eq_zero.2 whole
  have scalars : (blanks l).scalars = l.scalars.takeWhile (isBlank ·.char) := legible
  simp only [Position.advance, last, count, scalars]
  simp

/-- A line is accounted for by what it comes to. -/
theorem accounted (tag : Nat) {m : Marker} {rest : List Bytes} (lines : Lines (l :: rest))
    (before : Before m (l :: rest)) :
    Accounted m.position l r ((outcomeAt tag m r l).events m.position l r)
      ((outcomeAt tag m r l).register r) := by
  have at_ : Context.At ⟨.bootstrap, r, m, l.trim, tag + m.position.offset.toNat⟩ l := by
    obtain ⟨more, text⟩ := before
    exact ⟨rfl, rest.flatten ++ more, by rw [text, List.flatten_cons, List.append_assoc]⟩
  have blank : IsBlank l → outcomeAt tag m r l = .blank := outcome_of_blank _
  have comment : ∀ content, IsComment l content → outcomeAt tag m r l = .comment content :=
    fun _ => outcome_of_comment _
  have entry : ruleEntry.Matches l →
      (∃ title rule, IsNamed l title ∧ outcomeAt tag m r l = .defined title rule) ∨
        ∃ k e, outcomeAt tag m r l = .failed k (some e) ∧ k < l.length := fun taken =>
    (outcome_of_definition at_ (Rule.recognises_iff.2 taken)).imp_right
      fun ⟨k, e, failed⟩ => ⟨k, e, failed, failed_lt at_ failed⟩
  have other : ¬ IsBlank l → (∀ content, ¬ IsComment l content) → ¬ ruleEntry.Matches l →
      outcomeAt tag m r l = .failed (blanks l).length none := outcome_of_other _
  generalize outcomeAt tag m r l = o at *
  refine ⟨fun isBlank => ?_, fun content isComment => ?_, fun taken => ?_,
    fun some_char noComment noEntry => ?_⟩
  · rw [blank isBlank]
    exact ⟨rfl, rfl⟩
  · rw [comment content isComment]
    exact ⟨rfl, rfl⟩
  · obtain ⟨title, rule, named, rfl⟩ | ⟨k, e, rfl, inside⟩ := entry taken
    · exact .inl ⟨title, rule, named, rfl, rfl⟩
    · exact .inr ⟨_, e, Position.line_advance (lines.notMem_take inside), rfl, rfl⟩
  · rw [other some_char noComment noEntry]
    refine ⟨?_, rfl⟩
    rw [Outcome.events, take_blanks, advance_blanks lines some_char]
    rfl

/-- By induction on the lines: each starts where the one before it ends. -/
theorem walk_accounts (tag : Nat) {filename : Bytes} {offset line : Nat} {ls : List Bytes}
    {m : Marker} (lines : Lines ls) (before : Before m ls)
    (place : m.position = ⟨filename, offset, line, 1⟩) :
    Accounts filename offset line r ls (walk tag m r ls).1 (walk tag m r ls).2 := by
  induction ls generalizing m r offset line with
  | nil => exact .nil
  | cons l rest ih =>
    have here := accounted tag (r := r) lines before
    rw [walk]
    generalize outcomeAt tag m r l = o at here ⊢
    rw [place] at here ⊢
    refine .cons here ?_
    cases rest with
    | nil => exact .nil
    | cons next rest =>
      refine ih lines.tail before.forward ?_
      rw [before.position, place]
      cases lines with
      | @cons l _ whole _ =>
        have ended : Ended (l ++ [10]) := .inr List.getLast?_concat
        simp [Position.advance, Position.lastLine_of_ended ended, List.count_eq_zero.2 whole]

/-- A compilation that goes on after every failure comes to a registry and accounts for every line of
    its source once, in the order of the lines. -/
theorem compile_accounts (base : Registry) (filename source : Bytes) (tag : Nat) :
    ∃ last, (compile (.over base filename .proceed tag) source).result = .ok last ∧
      Accounts filename 0 1 base (cutLines source)
        (compile (.over base filename .proceed tag) source).events last := by
  rw [compile_walk]
  exact ⟨_, rfl, walk_accounts tag (lines_cutLines source) (before_start filename source) rfl⟩

end Definition

end Rulebook

import Rulebook.Ebnf
import Rulebook.Proofs.Ebnf.Grammar
import Rulebook.Proofs.Text.Quoted

/-!
# Cutting rendered productions

What is rendered is cut into the lexemes it was rendered from, because the parts of a rendering keep
apart: where two parts meet, one of them ends or starts with a byte that is not part of a name.
A rendered production takes one line, which its name starts (`Bnf.lex_productions`).
-/

namespace Rulebook

/-! ### The lexemes of a rendering -/

namespace Ebnf

open Bnf (Lexeme)

mutual

/-- The lexemes of a right side, with the names of productions under a spelling. -/
def lexemes (spell : Bytes → Bytes) : Ebnf → List Lexeme
  | token text => [.token text]
  | reference name => [.word (spell name)]
  | seq parts => (lexemesOf spell parts).flatten
  | choice alternatives => [Lexeme.mark .bar].intercalate (lexemesOf spell alternatives)
  | group body => .mark (.opening .round) :: (body.lexemes spell ++ [.mark (.closing .round)])
  | option body => .mark (.opening .square) :: (body.lexemes spell ++ [.mark (.closing .square)])
  | repetition body => .mark (.opening .curly) :: (body.lexemes spell ++ [.mark (.closing .curly)])

/-- The lexemes of each part. -/
def lexemesOf (spell : Bytes → Bytes) : List Ebnf → List (List Lexeme)
  | [] => []
  | part :: rest => part.lexemes spell :: lexemesOf spell rest

end

end Ebnf

namespace Bnf

theorem Place.line_after {b : UInt8} (other : b ≠ 10) (p : Place) : (p.after b).line = p.line := by
  rw [after, if_neg (by simpa using other)]
  split <;> rfl

/-- True if what is cut does not depend on what comes after, because no name runs on. -/
def Apart (a b : Bytes) : Prop :=
  (∀ c ∈ a.getLast?, Bytes.isWord c = false) ∨ ∀ c ∈ b.head?, Bytes.isWord c = false

/-- True of a text on one line that is cut into some lexemes, wherever it stands, and in which no
    name or token is left open. -/
def Cuts (a : Bytes) (ls : List Lexeme) : Prop :=
  ∀ (p : Place) (rest : Bytes), Apart a rest →
    ∃ p' found, p'.line = p.line ∧ found.map Prod.snd = ls ∧
      lex p .idle (a ++ rest) = (lex p' .idle rest).map (found ++ ·)

theorem cuts_nil : Cuts [] [] := fun p rest _ => ⟨p, [], rfl, rfl, by simp⟩

theorem Cuts.eq_nil {ls : List Lexeme} (h : Cuts [] ls) : ls = [] := by
  obtain ⟨p', found, -, rfl, cut⟩ := h ⟨1, 1⟩ [] (.inr (by simp))
  have : found = [] := by simpa [lex, Mode.finish] using cut
  simp [this]

/-- What is cut apart is cut together. -/
theorem Cuts.append {a b : Bytes} {ls ms : List Lexeme} (ha : Cuts a ls) (hb : Cuts b ms)
    (apart : Apart a b) : Cuts (a ++ b) (ls ++ ms) := by
  cases b with
  | nil =>
    rw [hb.eq_nil, List.append_nil, List.append_nil]
    exact ha
  | cons c b =>
    intro p rest beyond
    obtain ⟨p₁, found, line, rfl, cut⟩ := ha p ((c :: b) ++ rest) (apart.imp_right (by simp))
    obtain ⟨p₂, found', line', rfl, cut'⟩ := hb p₁ rest (beyond.imp_left (by simp))
    refine ⟨p₂, found ++ found', line'.trans line, by simp, ?_⟩
    rw [List.append_assoc, cut, cut', Option.map_map]
    simp [Function.comp_def]

/-! ### Single lexemes -/

theorem cuts_blank : Cuts [32] [] := fun p _ _ => ⟨p.after 32, [], rfl, rfl, rfl⟩

theorem cuts_mark {b : UInt8} {m : Mark} (is : ∀ p, Mode.start p b = some ([(p, .mark m)], .idle))
    (other : b ≠ 10) : Cuts [b] [.mark m] := by
  intro p rest _
  refine ⟨p.after b, [(p, .mark m)], p.line_after other, rfl, ?_⟩
  rw [List.singleton_append, lex, Mode.step, is]

/-- True of what can be a name: a letter or underscore, and then letters, digits and underscores. -/
def IsName (w : Bytes) : Prop :=
  ∃ b more, w = b :: more ∧ (∀ c ∈ w, Bytes.isWord c = true) ∧ (48 ≤ b && b ≤ 57) = false

theorem isWord_ne {b c : UInt8} (h : Bytes.isWord b = true) (h' : Bytes.isWord c = false) :
    b ≠ c := by
  rintro rfl
  rw [h] at h'
  cases h'

theorem lex_word_more {more : Bytes} (letters : ∀ c ∈ more, Bytes.isWord c = true) {rest : Bytes}
    (apart : ∀ c ∈ rest.head?, Bytes.isWord c = false) (p start : Place) (name : Bytes) :
    ∃ p' : Place, p'.line = p.line ∧ lex p (.word start name) (more ++ rest) =
      (lex p' .idle rest).map ((start, .word (name ++ more)) :: ·) := by
  induction more generalizing p name with
  | nil =>
    refine ⟨p, rfl, ?_⟩
    rw [List.nil_append, List.append_nil]
    cases rest with
    | nil => rfl
    | cons c rest =>
      have other := apart c rfl
      rw [lex, lex, Mode.step, Mode.step, if_neg (by simp [other])]
      cases Mode.start p c with
      | none => rfl
      | some next => simp [Function.comp_def]
  | cons c more ih =>
    have letter := letters c (List.mem_cons_self ..)
    obtain ⟨p', line, cut⟩ := ih (fun d mem => letters d (List.mem_cons_of_mem _ mem)) (p.after c)
      (name ++ [c])
    refine ⟨p', line.trans (p.line_after (isWord_ne letter (by decide))), ?_⟩
    rw [List.cons_append, lex, Mode.step, if_pos letter]
    simp only [List.nil_append, Option.map_id', cut, List.append_assoc, List.singleton_append]

theorem lex_word {w : Bytes} (h : IsName w) {rest : Bytes}
    (apart : ∀ c ∈ rest.head?, Bytes.isWord c = false) (p : Place) :
    ∃ p' : Place, p'.line = p.line ∧
      lex p .idle (w ++ rest) = (lex p' .idle rest).map ((p, .word w) :: ·) := by
  obtain ⟨b, more, rfl, letters, letter⟩ := h
  have first := letters b (List.mem_cons_self ..)
  obtain ⟨p', line, cut⟩ := lex_word_more (fun c mem => letters c (List.mem_cons_of_mem _ mem)) apart
    (p.after b) p [b]
  refine ⟨p', line.trans (p.line_after (isWord_ne first (by decide))), ?_⟩
  have starts : Mode.start p b = some ([], .word p [b]) := by
    have blank : [9, 10, 13, 32].contains b = false := by
      have ne {c : UInt8} (other : Bytes.isWord c = false) := isWord_ne first other
      simp only [List.contains_eq_mem, List.mem_cons, List.not_mem_nil, or_false, not_or,
        decide_eq_false_iff_not]
      exact ⟨ne (by decide), ne (by decide), ne (by decide), ne (by decide)⟩
    rw [Mode.start, blank, first, letter]
    rfl
  rw [List.cons_append, lex, Mode.step, starts]
  simpa using cut

theorem cuts_word {w : Bytes} (h : IsName w) : Cuts w [.word w] := by
  intro p rest apart
  obtain ⟨b, more, rfl, letters, -⟩ := id h
  have apart : ∀ c ∈ rest.head?, Bytes.isWord c = false := by
    obtain last | first := apart
    · have mem := List.getLast_mem (l := b :: more) (by simp)
      have := last _ (List.getLast?_eq_getLast_of_ne_nil (by simp))
      rw [letters _ mem] at this
      cases this
    · exact first
  obtain ⟨p', line, cut⟩ := lex_word h apart p
  exact ⟨p', [(p, .word (b :: more))], line, rfl, cut⟩

theorem lex_skip {more : Bytes} (whole : 10 ∉ more) (p start : Place) (text t : Bytes) :
    ∃ p' : Place, p'.line = p.line ∧
      lex p (.quoted start text more.length) (more ++ t) = lex p' (.quoted start text 0) t := by
  induction more generalizing p with
  | nil => exact ⟨p, rfl, rfl⟩
  | cons c more ih =>
    simp only [List.mem_cons, not_or] at whole
    obtain ⟨p', line, cut⟩ := ih whole.2 (p.after c)
    refine ⟨p', line.trans (p.line_after (Ne.symm whole.1)), ?_⟩
    rw [List.cons_append, List.length_cons, lex, Mode.step]
    simpa using cut

theorem lex_pieces {parts : List (Bytes × Bytes)}
    (spells : ∀ part ∈ parts, Bytes.Spells part.1 part.2) (p start : Place) (text t : Bytes) :
    ∃ p' : Place, p'.line = p.line ∧
      lex p (.quoted start text 0) ((parts.map Prod.fst).flatten ++ t) =
        lex p' (.quoted start (text ++ (parts.map Prod.snd).flatten) 0) t := by
  induction parts generalizing p text with
  | nil => exact ⟨p, rfl, by simp⟩
  | cons part parts ih =>
    obtain ⟨b, more, piece, quote, whole, head⟩ := spells part (List.mem_cons_self ..)
    rw [piece, List.mem_cons, not_or] at whole
    obtain ⟨p₁, line₁, skipped⟩ := lex_skip whole.2 (p.after b) start (text ++ part.2)
      ((parts.map Prod.fst).flatten ++ t)
    obtain ⟨p₂, line₂, others⟩ := ih (fun part mem => spells part (List.mem_cons_of_mem _ mem)) p₁
      (text ++ part.2)
    refine ⟨p₂, line₂.trans (line₁.trans (p.line_after (Ne.symm whole.1))), ?_⟩
    rw [List.map_cons, List.flatten_cons, piece, List.append_assoc, List.cons_append, lex, Mode.step,
      if_neg (by simpa using quote), head]
    simp [skipped, others]

/-- A quoted text is one token. -/
theorem cuts_quote (s : Bytes) : Cuts s.quote [.token s] := by
  intro p rest _
  obtain ⟨parts, spells, quoted, rfl⟩ := Bytes.exists_pieces s
  obtain ⟨p', line, cut⟩ := lex_pieces spells (p.after 34) p [] (34 :: rest)
  refine ⟨p'.after 34, [(p, .token (parts.map Prod.snd).flatten)],
    (p'.line_after (by decide)).trans (line.trans (p.line_after (by decide))), rfl, ?_⟩
  have opens : Mode.idle.step p 34 ((parts.map Prod.fst).flatten ++ [34] ++ rest) =
    some ([], .quoted p [] 0) := rfl
  have closes : (Mode.quoted p (parts.map Prod.snd).flatten 0).step p' 34 rest =
    some ([(p, .token (parts.map Prod.snd).flatten)], .idle) := rfl
  rw [quoted, List.cons_append, List.cons_append, lex, opens]
  simp only [List.nil_append, Option.map_id', List.append_assoc, List.singleton_append, cut]
  rw [lex, closes]
  rfl

/-! ### Renderings -/

theorem Cuts.blank_after {a : Bytes} {ls : List Lexeme} (h : Cuts a ls) : Cuts (a ++ [32]) ls := by
  simpa using h.append cuts_blank (.inr (by simp; decide))

theorem Cuts.blank_before {a : Bytes} {ls : List Lexeme} (h : Cuts a ls) : Cuts (32 :: a) ls :=
  cuts_blank.append h (.inl (by simp; decide))

/-- Texts that are cut, with a separator between them that keeps them apart. -/
theorem cuts_join {separator : Bytes} {between : List Lexeme} (cut : Cuts separator between)
    (some_byte : separator ≠ []) (first : ∀ c ∈ separator.head?, Bytes.isWord c = false)
    (last : ∀ c ∈ separator.getLast?, Bytes.isWord c = false) {parts : List Bytes}
    {lss : List (List Lexeme)} (h : List.Forall₂ Cuts parts lss) :
    Cuts (Bytes.join separator parts) (between.intercalate lss) := by
  unfold Bytes.join
  induction h with
  | nil => exact cuts_nil
  | @cons part ls parts lss here others ih =>
    cases others with
    | nil => simpa using here
    | cons next others =>
      rw [List.intercalate_cons_cons, List.intercalate_cons_cons]
      refine (here.append cut (.inr first)).append ih (.inl fun c mem => last c ?_)
      rwa [List.getLast?_append_of_ne_nil _ some_byte] at mem

/-- A body in brackets. -/
theorem cuts_enclosed {b : Bracket} {before after body : Bytes} {ls : List Lexeme}
    (cut : Cuts body ls) (opening : Cuts before [.mark (.opening b)])
    (closing : Cuts after [.mark (.closing b)])
    (last : ∀ c ∈ before.getLast?, Bytes.isWord c = false)
    (first : ∀ c ∈ after.head?, Bytes.isWord c = false) :
    Cuts (before ++ body ++ after) (.mark (.opening b) :: (ls ++ [Lexeme.mark (.closing b)])) := by
  have := (opening.append cut (.inl last)).append closing (.inr first)
  simpa using this

variable {spell : Bytes → Bytes}

mutual

/-- A rendered right side is cut into its lexemes. -/
theorem cuts_render : ∀ {e : Ebnf}, (∀ n ∈ e.references, IsName (spell n)) →
    Cuts (e.render spell) (e.lexemes spell)
  | .token text, _ => cuts_quote text
  | .reference n, names => cuts_word (names n (List.mem_singleton_self n))
  | .seq parts, names => by
      have flat (lss : List (List Lexeme)) : ([] : List Lexeme).intercalate lss = lss.flatten := by
        induction lss with
        | nil => rfl
        | cons ls lss ih => cases lss <;> simp_all
      rw [Ebnf.render, Ebnf.lexemes, ← flat]
      exact cuts_join cuts_blank (by simp) (by decide) (by decide) (cuts_renderAll names)
  | .choice alternatives, names => by
      have bar : Cuts [32, 124, 32] [.mark .bar] :=
        (cuts_mark (b := 124) (fun p => rfl) (by decide)).blank_before.blank_after
      exact cuts_join bar (by simp) (by decide) (by decide) (cuts_renderAll names)
  | .group body, names =>
      cuts_enclosed (cuts_render names) (cuts_mark (b := 40) (fun p => rfl) (by decide))
        (cuts_mark (b := 41) (fun p => rfl) (by decide)) (by decide) (by decide)
  | .option body, names =>
      cuts_enclosed (cuts_render names)
        (cuts_mark (b := 91) (fun p => rfl) (by decide)).blank_after
        (cuts_mark (b := 93) (fun p => rfl) (by decide)).blank_before (by decide) (by decide)
  | .repetition body, names =>
      cuts_enclosed (cuts_render names)
        (cuts_mark (b := 123) (fun p => rfl) (by decide)).blank_after
        (cuts_mark (b := 125) (fun p => rfl) (by decide)).blank_before (by decide) (by decide)

theorem cuts_renderAll : ∀ {parts : List Ebnf},
    (∀ n ∈ Ebnf.referencesOf parts, IsName (spell n)) →
    List.Forall₂ Cuts (Ebnf.renderAll spell parts) (Ebnf.lexemesOf spell parts)
  | [], _ => .nil
  | _ :: _, names =>
      .cons (cuts_render fun n mem => names n (List.mem_append_left _ mem))
        (cuts_renderAll fun n mem => names n (List.mem_append_right _ mem))

end

/-- True of lexemes that are a production on a line. -/
def OnLine (spell : Bytes → Bytes) (ls : List (Place × Lexeme)) (p : Entry Ebnf × Nat) : Prop :=
  ls.map Prod.snd = .word (spell p.1.name) :: .mark .is ::
      (p.1.rule.lexemes spell ++ [.mark .stop]) ∧
    ls.head?.map Prod.fst = some ⟨p.2, 1⟩

theorem lex_production {p : Entry Ebnf} (name : IsName (spell p.name))
    (names : ∀ n ∈ p.rule.references, IsName (spell n)) (line : Nat) (rest : Bytes) :
    ∃ ls p', OnLine spell ls (p, line) ∧ p'.line = line ∧
      lex ⟨line, 1⟩ .idle (Ebnf.renderProduction spell p.name p.rule ++ rest) =
        (lex p' .idle rest).map (ls ++ ·) := by
  have is : Cuts [32, 61, 32] [.mark .is] :=
    (cuts_mark (b := 61) (fun p => rfl) (by decide)).blank_before.blank_after
  have stop : Cuts [32, 46] [.mark .stop] :=
    (cuts_mark (b := 46) (fun p => rfl) (by decide)).blank_before
  have body := (is.append (cuts_render names) (.inl (by decide))).append stop (.inr (by decide))
  have starts : ∀ c ∈ ([32, 61, 32] ++ p.rule.render spell ++ [32, 46] ++ rest).head?,
      Bytes.isWord c = false := by
    simp only [List.cons_append, List.head?_cons, Option.mem_def, Option.some.injEq]
    rintro c rfl
    rfl
  obtain ⟨p₁, line₁, cut₁⟩ := lex_word name starts ⟨line, 1⟩
  have ends : Apart ([32, 61, 32] ++ p.rule.render spell ++ [32, 46]) rest := .inl (by
    rw [List.getLast?_append_of_ne_nil _ (by simp)]
    decide)
  obtain ⟨p₂, found, line₂, lexemes, cut₂⟩ := body p₁ rest ends
  refine ⟨(⟨line, 1⟩, .word (spell p.name)) :: found, p₂, ⟨?_, rfl⟩, line₂.trans line₁, ?_⟩
  · simp [lexemes]
  · have shape : Ebnf.renderProduction spell p.name p.rule ++ rest =
        spell p.name ++ ([32, 61, 32] ++ p.rule.render spell ++ [32, 46] ++ rest) := by
      have is : (" = " : Bytes) = [32, 61, 32] := rfl
      have stop : (" ." : Bytes) = [32, 46] := rfl
      simp [Ebnf.renderProduction, is, stop]
    rw [shape, cut₁, cut₂, Option.map_map]
    rfl

/-- Rendered productions are cut into their lexemes. Each is on a line of its own, at the start of
    which its name stands. -/
theorem lex_productions {ps : List (Entry Ebnf)}
    (names : ∀ p ∈ ps, IsName (spell p.name) ∧ ∀ n ∈ p.rule.references, IsName (spell n))
    (line : Nat) :
    ∃ chunks, List.Forall₂ (OnLine spell) chunks (ps.zipIdx line) ∧
      lex ⟨line, 1⟩ .idle
          (Bytes.join "\n" (ps.map fun p => Ebnf.renderProduction spell p.name p.rule)) =
        some chunks.flatten := by
  induction ps generalizing line with
  | nil => exact ⟨[], .nil, rfl⟩
  | cons p ps ih =>
    obtain ⟨name, refs⟩ := names p (List.mem_cons_self ..)
    cases ps with
    | nil =>
      obtain ⟨ls, p', here, -, cut⟩ := lex_production name refs line []
      refine ⟨[ls], .cons here .nil, ?_⟩
      simpa [Bytes.join, lex, Mode.finish] using cut
    | cons p₂ ps =>
      obtain ⟨chunks, others, cut'⟩ :=
        ih (fun p mem => names p (List.mem_cons_of_mem _ mem)) (line + 1)
      obtain ⟨ls, p', here, same, cut⟩ := lex_production name refs line
        (10 :: Bytes.join "\n"
          ((p₂ :: ps).map fun p => Ebnf.renderProduction spell p.name p.rule))
      refine ⟨ls :: chunks, .cons here others, ?_⟩
      have next : p'.after 10 = ⟨line + 1, 1⟩ := by rw [← same]; rfl
      have shape : Bytes.join "\n" ((p :: p₂ :: ps).map fun p =>
            Ebnf.renderProduction spell p.name p.rule) =
          Ebnf.renderProduction spell p.name p.rule ++ 10 :: Bytes.join "\n"
            ((p₂ :: ps).map fun p => Ebnf.renderProduction spell p.name p.rule) := by
        simp [Bytes.join, show ("\n" : Bytes) = [10] from rfl]
      have newline : Mode.idle.step p' 10 (Bytes.join "\n"
          ((p₂ :: ps).map fun p => Ebnf.renderProduction spell p.name p.rule)) =
        some ([], .idle) := rfl
      rw [shape, cut, lex, newline]
      simp only [next, cut', Option.map_some, List.nil_append, List.flatten_cons]

/-! ### Characters of a rendering -/

/-- A name is ASCII. -/
theorem IsName.isUtf8 {w : Bytes} (h : IsName w) : w.isUtf8 = true := by
  obtain ⟨b, more, rfl, letters, -⟩ := h
  refine Bytes.isUtf8_of_ascii fun c mem => ?_
  have letter := letters c mem
  simp only [Bytes.isWord, Bool.or_eq_true, Bool.and_eq_true, decide_eq_true_eq, beq_iff_eq] at letter
  rcases letter with ((⟨-, high⟩ | ⟨-, high⟩) | rfl) | ⟨-, high⟩
  · exact UInt8.lt_of_le_of_lt high (by decide)
  · exact UInt8.lt_of_le_of_lt high (by decide)
  · decide
  · exact UInt8.lt_of_le_of_lt high (by decide)

/-- Brackets of ASCII around a body. -/
theorem isUtf8_enclosed {before body after : Bytes} (opening : ∀ b ∈ before, b < 0x80)
    (inside : body.isUtf8 = true) (closing : ∀ b ∈ after, b < 0x80) :
    Bytes.isUtf8 (before ++ body ++ after) = true :=
  Bytes.isUtf8_append (Bytes.isUtf8_append (Bytes.isUtf8_of_ascii opening) inside)
    (Bytes.isUtf8_of_ascii closing)

mutual

/-- A rendered right side is UTF-8, whatever the bytes of its tokens are. -/
theorem isUtf8_render : ∀ {e : Ebnf}, (∀ n ∈ e.references, IsName (spell n)) →
    (e.render spell).isUtf8 = true
  | .token text, _ => Bytes.isUtf8_quote text
  | .reference n, names => (names n (List.mem_singleton_self n)).isUtf8
  | .seq _, names => Bytes.isUtf8_join (by decide) (isUtf8_renderAll names)
  | .choice _, names => Bytes.isUtf8_join (by decide) (isUtf8_renderAll names)
  | .group _, names => isUtf8_enclosed (by decide) (isUtf8_render names) (by decide)
  | .option _, names => isUtf8_enclosed (by decide) (isUtf8_render names) (by decide)
  | .repetition _, names => isUtf8_enclosed (by decide) (isUtf8_render names) (by decide)

theorem isUtf8_renderAll : ∀ {parts : List Ebnf},
    (∀ n ∈ Ebnf.referencesOf parts, IsName (spell n)) →
    ∀ part ∈ Ebnf.renderAll spell parts, part.isUtf8 = true
  | [], _ => nofun
  | _ :: _, names =>
      List.forall_mem_cons.2
        ⟨isUtf8_render fun n mem => names n (List.mem_append_left _ mem),
          isUtf8_renderAll fun n mem => names n (List.mem_append_right _ mem)⟩

end

theorem isUtf8_renderProduction {name : Bytes} {body : Ebnf} (is_name : IsName (spell name))
    (names : ∀ n ∈ body.references, IsName (spell n)) :
    (Ebnf.renderProduction spell name body).isUtf8 = true :=
  Bytes.isUtf8_append
    (Bytes.isUtf8_append (Bytes.isUtf8_append is_name.isUtf8 rfl) (isUtf8_render names)) rfl

end Bnf

end Rulebook

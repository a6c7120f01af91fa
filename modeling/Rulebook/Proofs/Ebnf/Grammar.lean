import Mathlib.Data.List.Forall2
import Rulebook.Text.Quoted

/-!
# Reading extended Backus-Naur form

A text of productions as a reader of grammars takes it apart. It is cut into names, quoted tokens
and marks, between which blanks do not count, and then follows

    Production  = name "=" [ Expression ] "." .
    Expression  = Alternative { "|" Alternative } .
    Alternative = Term { Term } .
    Term        = name | token | "(" Expression ")" | "[" Expression "]" | "{" Expression "}" .

The reader keeps the expressions that are still open on a stack. It reads every text that is
written by the grammar (`foldlM_productions`), to the productions it was written from, and no other
(`lexemes_of_foldlM`). Comments, ranges of tokens, raw texts and names beyond ASCII are left out.
-/

namespace Rulebook

namespace Bnf

/-! ## Lexemes -/

/-- The kinds of brackets. -/
inductive Bracket where
  /-- Around a part, to keep it together. -/
  | round
  /-- Around a part that may be left out. -/
  | square
  /-- Around a part that may come any number of times. -/
  | curly
  deriving DecidableEq, Repr

/-- The marks of the grammar. -/
inductive Mark where
  /-- Between a name and its expression. -/
  | is
  /-- After a production. -/
  | stop
  /-- Between alternatives. -/
  | bar
  /-- Before an expression in brackets. -/
  | opening (b : Bracket)
  /-- After an expression in brackets. -/
  | closing (b : Bracket)
  deriving DecidableEq, Repr

/-- What a text is cut into. -/
inductive Lexeme where
  /-- A name. -/
  | word (name : Bytes)
  /-- A token, without its quotes. -/
  | token (text : Bytes)
  /-- A mark. -/
  | mark (m : Mark)
  deriving DecidableEq, Repr

/-- Where something stands in a text. Lines and columns count from one, columns in characters. -/
structure Place where
  line : Nat
  column : Nat
  deriving DecidableEq, Repr

/-- The place after one more byte. In UTF-8 no character starts with a byte from `0x80` to `0xBF`. -/
def Place.after (p : Place) (b : UInt8) : Place :=
  if b == 10 then ⟨p.line + 1, 1⟩
  else if 0x80 ≤ b && b < 0xC0 then p
  else ⟨p.line, p.column + 1⟩

/-- The mark that a byte is. -/
def mark? (b : UInt8) : Option Mark :=
  if b == 61 then some .is
  else if b == 46 then some .stop
  else if b == 124 then some .bar
  else if b == 40 then some (.opening .round)
  else if b == 41 then some (.closing .round)
  else if b == 91 then some (.opening .square)
  else if b == 93 then some (.closing .square)
  else if b == 123 then some (.opening .curly)
  else if b == 125 then some (.closing .curly)
  else none

/-- What is being read when a text is cut. -/
inductive Mode where
  /-- Nothing has been started. -/
  | idle
  /-- A name has been read so far. -/
  | word (start : Place) (name : Bytes)
  /-- A token has been read so far, and some bytes more. -/
  | quoted (start : Place) (text : Bytes) (skip : Nat)

namespace Mode

/-- What a byte does between two lexemes. A name does not start with a digit. -/
def start (p : Place) (b : UInt8) : Option (List (Place × Lexeme) × Mode) :=
  if [9, 10, 13, 32].contains b then some ([], idle)
  else if Bytes.isWord b && !(48 ≤ b && b ≤ 57) then some ([], word p [b])
  else if b == 34 then some ([], quoted p [] 0)
  else (mark? b).map fun m => ([(p, .mark m)], idle)

/-- The lexemes that end before or with a byte, and what is being read after it. -/
def step (p : Place) (b : UInt8) (rest : Bytes) : Mode → Option (List (Place × Lexeme) × Mode)
  | idle => start p b
  | word place name =>
      if Bytes.isWord b then some ([], word place (name ++ [b]))
      else (start p b).map fun (found, mode) => ((place, .word name) :: found, mode)
  | quoted place text (skip + 1) => some ([], quoted place text skip)
  | quoted place text 0 =>
      if b == 34 then some ([(place, .token text)], idle)
      else (Bytes.unquoteHead? 34 b rest).map fun (out, skip) => ([], quoted place (text ++ out) skip)

/-- The lexemes that end with the text. A token must have been closed. -/
def finish : Mode → Option (List (Place × Lexeme))
  | idle => some []
  | word place name => some [(place, .word name)]
  | quoted .. => none

end Mode

/-- Cuts a text into lexemes, each with its place. -/
def lex (p : Place) (mode : Mode) : Bytes → Option (List (Place × Lexeme))
  | [] => mode.finish
  | b :: rest =>
      match mode.step p b rest with
      | none => none
      | some (found, mode') => (lex (p.after b) mode' rest).map (found ++ ·)

/-! ## Trees -/

mutual

/-- One part of an alternative. -/
inductive Term where
  /-- What is produced under a name. -/
  | name (name : Bytes)
  /-- A token. -/
  | token (text : Bytes)
  /-- An expression in brackets. -/
  | enclosed (b : Bracket) (body : Expression)

/-- One term or more, one after another. -/
inductive Alternative where
  | one (t : Term)
  | more (front : Alternative) (t : Term)

/-- One alternative or more. -/
inductive Expression where
  | one (a : Alternative)
  | more (front : Expression) (a : Alternative)

end

/-- A name with what it stands for, and where the name is. -/
structure Production where
  place : Place
  name : Bytes
  body : Option Expression

mutual

/-- A term in writing. -/
def Term.lexemes : Term → List Lexeme
  | .name n => [.word n]
  | .token t => [.token t]
  | .enclosed b body => .mark (.opening b) :: (body.lexemes ++ [.mark (.closing b)])

/-- An alternative in writing. -/
def Alternative.lexemes : Alternative → List Lexeme
  | .one t => t.lexemes
  | .more front t => front.lexemes ++ t.lexemes

/-- An expression in writing. -/
def Expression.lexemes : Expression → List Lexeme
  | .one a => a.lexemes
  | .more front a => front.lexemes ++ .mark .bar :: a.lexemes

end

/-- A production in writing. -/
def Production.lexemes (p : Production) : List Lexeme :=
  .word p.name :: .mark .is :: ((p.body.map Expression.lexemes).getD [] ++ [.mark .stop])

/-! ## The reader -/

/-- An expression that is being read: the alternatives before the last bar, and the terms after. -/
structure Frame where
  before : Option Expression
  current : Option Alternative

namespace Frame

/-- Nothing has been read. -/
def empty : Frame := ⟨none, none⟩

/-- One more term has been read. -/
def push (f : Frame) (t : Term) : Frame :=
  ⟨f.before, some (match f.current with
    | none => .one t
    | some front => .more front t)⟩

/-- The expression that has been read, if a term stands after its last bar. -/
def expression? (f : Frame) : Option Expression :=
  f.current.map fun a =>
    match f.before with
    | none => .one a
    | some front => .more front a

end Frame

/-- What is being read. -/
inductive State where
  /-- Nothing, or a production has ended. -/
  | between
  /-- The name of a production. -/
  | named (place : Place) (name : Bytes)
  /-- The body of a production: the innermost open expression, and around it the others, each with
      the bracket that was opened in it. -/
  | body (place : Place) (name : Bytes) (top : Frame) (below : List (Bracket × Frame))

/-- What a lexeme does, given the productions before. -/
def step : List Production × State → Place × Lexeme → Option (List Production × State)
  | (done, .between), (place, .word name) => some (done, .named place name)
  | (done, .named place name), (_, .mark .is) => some (done, .body place name .empty [])
  | (done, .body place name top below), (_, .word n) =>
      some (done, .body place name (top.push (.name n)) below)
  | (done, .body place name top below), (_, .token t) =>
      some (done, .body place name (top.push (.token t)) below)
  | (done, .body place name top below), (_, .mark (.opening b)) =>
      some (done, .body place name .empty ((b, top) :: below))
  | (done, .body place name top below), (_, .mark .bar) =>
      top.expression?.map fun e => (done, .body place name ⟨some e, none⟩ below)
  | (done, .body place name top ((b, outer) :: below)), (_, .mark (.closing b')) =>
      if b = b' then
        top.expression?.map fun e => (done, .body place name (outer.push (.enclosed b e)) below)
      else none
  | (done, .body place name ⟨none, none⟩ []), (_, .mark .stop) =>
      some (done ++ [⟨place, name, none⟩], .between)
  | (done, .body place name top []), (_, .mark .stop) =>
      top.expression?.map fun e => (done ++ [⟨place, name, some e⟩], .between)
  | _, _ => none

/-- The productions of a text. -/
def read (text : Bytes) : Option (List Production) := do
  let lexemes ← lex ⟨1, 1⟩ .idle text
  match ← lexemes.foldlM step ([], .between) with
  | (productions, .between) => pure productions
  | _ => none

/-! ### What is written is read -/

variable {done : List Production} {place : Place} {name : Bytes}

/-- The reader after an expression. -/
def Expression.frame : Expression → Frame
  | .one a => ⟨none, some a⟩
  | .more front a => ⟨some front, some a⟩

@[simp] theorem Expression.expression?_frame (e : Expression) : e.frame.expression? = some e := by
  cases e <;> rfl

mutual

theorem foldlM_term : ∀ (t : Term) {ls : List (Place × Lexeme)}, ls.map Prod.snd = t.lexemes →
    ∀ {top : Frame} {below : List (Bracket × Frame)},
    ls.foldlM step (done, .body place name top below) =
      some (done, .body place name (top.push t) below)
  | .name n, ls, written, top, below => by
      obtain ⟨⟨q, _⟩, rfl, rfl⟩ := List.map_eq_singleton_iff.1 written
      rfl
  | .token t, ls, written, top, below => by
      obtain ⟨⟨q, _⟩, rfl, rfl⟩ := List.map_eq_singleton_iff.1 written
      rfl
  | .enclosed b body, ls, written, top, below => by
      obtain ⟨⟨q, _⟩, rest, rfl, rfl, tail⟩ := List.map_eq_cons_iff.1 written
      obtain ⟨inner, last, rfl, inside, closed⟩ := List.map_eq_append_iff.1 tail
      obtain ⟨⟨q', _⟩, rfl, rfl⟩ := List.map_eq_singleton_iff.1 closed
      rw [List.foldlM_cons, step, Option.bind_eq_bind, Option.bind_some, List.foldlM_append,
        foldlM_expression body inside]
      simp [step]

theorem foldlM_alternative : ∀ (a : Alternative) {ls : List (Place × Lexeme)},
    ls.map Prod.snd = a.lexemes →
    ∀ {before : Option Expression} {below : List (Bracket × Frame)},
    ls.foldlM step (done, .body place name ⟨before, none⟩ below) =
      some (done, .body place name ⟨before, some a⟩ below)
  | .one t, ls, written, before, below => foldlM_term t written
  | .more front t, ls, written, before, below => by
      obtain ⟨first, last, rfl, first_written, last_written⟩ := List.map_eq_append_iff.1 written
      rw [List.foldlM_append, foldlM_alternative front first_written]
      exact foldlM_term t last_written

theorem foldlM_expression : ∀ (e : Expression) {ls : List (Place × Lexeme)},
    ls.map Prod.snd = e.lexemes → ∀ {below : List (Bracket × Frame)},
    ls.foldlM step (done, .body place name .empty below) =
      some (done, .body place name e.frame below)
  | .one a, ls, written, below => foldlM_alternative a written
  | .more front a, ls, written, below => by
      obtain ⟨first, last, rfl, first_written, last_written⟩ := List.map_eq_append_iff.1 written
      obtain ⟨⟨q, _⟩, rest, rfl, rfl, rest_written⟩ := List.map_eq_cons_iff.1 last_written
      rw [List.foldlM_append, foldlM_expression front first_written]
      simp only [Option.bind_eq_bind, Option.bind_some, List.foldlM_cons, step,
        Expression.expression?_frame, Option.map_some]
      exact foldlM_alternative a rest_written

end

/-- True of the lexemes of a production, if its name is where it should be. -/
def Writes (ls : List (Place × Lexeme)) (p : Production) : Prop :=
  ls.map Prod.snd = p.lexemes ∧ ls.head?.map Prod.fst = some p.place

theorem foldlM_production {p : Production} {ls : List (Place × Lexeme)} (h : Writes ls p) :
    ls.foldlM step (done, .between) = some (done ++ [p], .between) := by
  obtain ⟨written, here⟩ := h
  obtain ⟨place, name, body⟩ := p
  obtain ⟨⟨q, _⟩, rest, rfl, rfl, tail⟩ := List.map_eq_cons_iff.1 written
  obtain rfl : q = place := by simpa using here
  obtain ⟨⟨q', _⟩, rest, rfl, rfl, more⟩ := List.map_eq_cons_iff.1 tail
  obtain ⟨inner, last, rfl, inside, closed⟩ := List.map_eq_append_iff.1 more
  obtain ⟨⟨q'', _⟩, rfl, rfl⟩ := List.map_eq_singleton_iff.1 closed
  simp only [List.foldlM_cons, step, Option.bind_eq_bind, Option.bind_some, List.foldlM_append]
  cases body with
  | none =>
    obtain rfl : inner = [] := by simpa using inside
    rfl
  | some e =>
    rw [foldlM_expression e inside, Option.bind_some]
    cases e <;> rfl

/-- The lexemes of productions are read to these productions. -/
theorem foldlM_productions {ps : List Production} {chunks : List (List (Place × Lexeme))}
    (h : List.Forall₂ Writes chunks ps) :
    chunks.flatten.foldlM step (done, .between) = some (done ++ ps, .between) := by
  induction h generalizing done with
  | nil => simp
  | cons here _ ih =>
    rw [List.flatten_cons, List.foldlM_append, foldlM_production here, Option.bind_eq_bind,
      Option.bind_some, ih, List.append_assoc]
    rfl

/-! ### What is read is written -/

/-- The part of an expression that has been read. -/
def Frame.lexemes (f : Frame) : List Lexeme :=
  (f.before.map fun e => e.lexemes ++ [.mark .bar]).getD [] ++
    (f.current.map Alternative.lexemes).getD []

/-- The part of a body that has been read. -/
def opened (top : Frame) : List (Bracket × Frame) → List Lexeme
  | [] => top.lexemes
  | (b, outer) :: below => opened outer below ++ .mark (.opening b) :: top.lexemes

/-- The part of a production that has been read. -/
def State.lexemes : State → List Lexeme
  | between => []
  | named _ name => [.word name]
  | body _ name top below => .word name :: .mark .is :: opened top below

theorem Frame.lexemes_push (f : Frame) (t : Term) : (f.push t).lexemes = f.lexemes ++ t.lexemes := by
  obtain ⟨before, current⟩ := f
  cases current <;> simp [push, Frame.lexemes, Alternative.lexemes]

theorem Frame.lexemes_of_expression? {f : Frame} {e : Expression} (h : f.expression? = some e) :
    f.lexemes = e.lexemes := by
  obtain ⟨before, current⟩ := f
  cases current with
  | none => cases h
  | some a => cases before <;> cases h <;> simp [Frame.lexemes, Expression.lexemes]

theorem opened_push (f : Frame) (t : Term) (below : List (Bracket × Frame)) :
    opened (f.push t) below = opened f below ++ t.lexemes := by
  cases below <;> simp [opened, Frame.lexemes_push]

/-- What the reader has read. -/
def written (s : List Production × State) : List Lexeme :=
  s.1.flatMap Production.lexemes ++ s.2.lexemes

theorem written_step {s s' : List Production × State} {x : Place × Lexeme}
    (h : step s x = some s') : written s' = written s ++ [x.2] := by
  revert h
  fun_cases step s x with
  | case1 done place name | case2 done place name =>
    rintro ⟨⟩
    simp [written, State.lexemes, opened, Frame.empty, Frame.lexemes]
  | case3 done place name top below _ n | case4 done place name top below _ n =>
    rintro ⟨⟩
    simp [written, State.lexemes, opened_push, Term.lexemes]
  | case5 done place name top below =>
    rintro ⟨⟩
    simp [written, State.lexemes, opened, Frame.empty, Frame.lexemes]
  | case6 done place name top below =>
    intro h
    obtain ⟨e, read, rfl⟩ := Option.map_eq_some_iff.1 h
    have after : Frame.lexemes ⟨some e, none⟩ = top.lexemes ++ [Lexeme.mark .bar] := by
      rw [Frame.lexemes_of_expression? read]
      simp [Frame.lexemes]
    cases below <;> simp [written, State.lexemes, opened, after]
  | case7 done place name top outer below =>
    intro h
    obtain ⟨e, read, rfl⟩ := Option.map_eq_some_iff.1 h
    have same := Frame.lexemes_of_expression? read
    simp [written, State.lexemes, opened, opened_push, Term.lexemes, same]
  | case9 done place name =>
    rintro ⟨⟩
    simp [written, State.lexemes, opened, Production.lexemes, Frame.lexemes]
  | case10 done place name top =>
    intro h
    obtain ⟨e, read, rfl⟩ := Option.map_eq_some_iff.1 h
    have same := Frame.lexemes_of_expression? read
    simp [written, State.lexemes, opened, Production.lexemes, same]
  | case8 | case11 => nofun

theorem written_foldlM {s s' : List Production × State} {ls : List (Place × Lexeme)}
    (h : ls.foldlM step s = some s') : written s' = written s ++ ls.map Prod.snd := by
  induction ls generalizing s with
  | nil =>
    cases h
    simp
  | cons x ls ih =>
    rw [List.foldlM_cons, Option.bind_eq_bind, Option.bind_eq_some_iff] at h
    obtain ⟨s₁, first, h⟩ := h
    rw [ih h, written_step first]
    simp

/-- The lexemes that are read as productions are those of the productions, in order. -/
theorem lexemes_of_foldlM {ls : List (Place × Lexeme)} {ps : List Production}
    (h : ls.foldlM step ([], .between) = some (ps, .between)) :
    ls.map Prod.snd = ps.flatMap Production.lexemes := by
  simpa [written, State.lexemes] using (written_foldlM h).symm

end Bnf

end Rulebook

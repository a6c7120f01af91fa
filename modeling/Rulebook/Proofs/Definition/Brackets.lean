import Rulebook.Proofs.Definition.Parts

/-!
# Brackets in values

A value is read for its parentheses alone, from left to right: whether the reader is inside of quotes
and how many groups are open follows from the characters before. Every text that a rule of the grammar
takes for a token is closed: wherever the reader starts outside of quotes, it is outside of them again
at the end, with as many groups open as before, and it never had more than four others open
(`Bootstrap.closed_token`).
-/

namespace Rulebook

open Pattern Bytes

namespace Bootstrap

open Rule

/-! ### Reading brackets -/

/-- Where a reader of brackets is. -/
inductive Mode where
  /-- Outside of quotes. -/
  | plain
  /-- Inside of quotes with a mark. -/
  | quoted (mark : Nat)
  /-- After a backslash inside of quotes with a mark. -/
  | escaped (mark : Nat)

/-- The reader after a character, with the number of open groups, of which there may be at most `limit`.
    A quoted text must not hold a line break. -/
def step (limit : Nat) : Mode × Nat → Nat → Option (Mode × Nat)
  | (.plain, opened), code =>
      if code = 40 then if opened < limit then some (.plain, opened + 1) else none
      else if code = 41 then if opened = 0 then none else some (.plain, opened - 1)
      else if code = 34 ∨ code = 39 then some (.quoted code, opened)
      else some (.plain, opened)
  | (.quoted mark, opened), code =>
      if code = 10 ∨ code = 13 then none
      else if code = mark then some (.plain, opened)
      else if code = 92 then some (.escaped mark, opened)
      else some (.quoted mark, opened)
  | (.escaped mark, opened), code => if code = 10 then none else some (.quoted mark, opened)

/-- The reader after a text. -/
def scan (limit : Nat) (state : Mode × Nat) (w : List Scalar) : Option (Mode × Nat) :=
  w.foldlM (fun state s => step limit state s.code) state

section

variable {limit : Nat} {state state' : Mode × Nat} {w u v : List Scalar}

@[simp] theorem scan_nil : scan limit state [] = some state := rfl

theorem scan_cons (s : Scalar) :
    scan limit state (s :: w) = (step limit state s.code).bind (scan limit · w) := rfl

theorem scan_append : scan limit state (u ++ v) = (scan limit state u).bind (scan limit · v) :=
  List.foldlM_append

/-- With more groups open before, and at least as many more allowed, there are as many more open
    after. -/
theorem step_add {mode mode' : Mode} {opened opened' code more limit' : Nat}
    (le : limit + more ≤ limit') (h : step limit (mode, opened) code = some (mode', opened')) :
    step limit' (mode, opened + more) code = some (mode', opened' + more) := by
  cases mode <;> grind -linarith [step]

/-- A reader that does not close more groups than it has opened can start with fewer. -/
theorem step_sub {mode mode' : Mode} {opened opened' code more high : Nat}
    (h : step high (mode, opened) code = some (mode', opened'))
    (fits : step (limit + more) (mode, opened + more) code = some state) :
    step limit (mode, opened) code = some (mode', opened') ∧ state = (mode', opened' + more) := by
  cases mode <;> grind -linarith [step]

theorem scan_add {mode mode' : Mode} {opened opened' more limit' : Nat} (le : limit + more ≤ limit')
    (h : scan limit (mode, opened) w = some (mode', opened')) :
    scan limit' (mode, opened + more) w = some (mode', opened' + more) := by
  induction w generalizing mode opened with
  | nil =>
    cases h
    rfl
  | cons s w ih =>
    rw [scan_cons] at h ⊢
    obtain ⟨⟨mode₁, opened₁⟩, first, others⟩ := Option.bind_eq_some_iff.1 h
    rw [step_add le first]
    exact ih others

theorem scan_sub {mode mode' : Mode} {opened opened' more high : Nat}
    (h : scan high (mode, opened) w = some (mode', opened'))
    (fits : scan (limit + more) (mode, opened + more) w = some state) :
    scan limit (mode, opened) w = some (mode', opened') ∧ state = (mode', opened' + more) := by
  induction w generalizing mode opened with
  | nil =>
    cases h
    cases fits
    exact ⟨rfl, rfl⟩
  | cons s w ih =>
    rw [scan_cons] at h fits ⊢
    obtain ⟨⟨mode₁, opened₁⟩, first, others⟩ := Option.bind_eq_some_iff.1 h
    obtain ⟨state₁, first', others'⟩ := Option.bind_eq_some_iff.1 fits
    obtain ⟨here, rfl⟩ := step_sub first first'
    rw [here]
    exact ih others others'

end

/-! ### Closed texts -/

/-- True of a text whose quotes and groups are closed, with never more than `limit` groups open. -/
def Closed (limit : Nat) (w : List Scalar) : Prop := scan limit (.plain, 0) w = some (.plain, 0)

section

variable {limit limit' : Nat} {w u v : List Scalar}

theorem closed_nil : Closed limit [] := rfl

theorem Closed.scan (h : Closed limit w) {opened : Nat} (le : limit + opened ≤ limit') :
    scan limit' (.plain, opened) w = some (.plain, opened) := by
  have more := scan_add le h
  rwa [Nat.zero_add] at more

/-- A closed text that is read inside of open groups fits into what is left of the limit. -/
theorem Closed.of_scan {high opened : Nat} {state : Mode × Nat} (h : Closed high w)
    (fits : Bootstrap.scan (limit + opened) (.plain, opened) w = some state) :
    Closed limit w ∧ state = (.plain, opened) := by
  rw [show (Mode.plain, opened) = (Mode.plain, 0 + opened) by rw [Nat.zero_add]] at fits ⊢
  exact scan_sub h fits

theorem Closed.mono (h : Closed limit w) (le : limit ≤ limit') : Closed limit' w := h.scan le

theorem Closed.append (h : Closed limit u) (h' : Closed limit v) : Closed limit (u ++ v) := by
  rw [Closed, scan_append, h]
  exact h'

/-- A reader never has more groups open than there were characters. -/
theorem scan_few {mode : Mode} {opened : Nat} {state : Mode × Nat}
    (h : Bootstrap.scan limit (mode, opened) w = some state) (le : opened + w.length ≤ limit') :
    Bootstrap.scan limit' (mode, opened) w = some state := by
  induction w generalizing mode opened with
  | nil => exact h
  | cons s w ih =>
    rw [scan_cons] at h ⊢
    obtain ⟨⟨mode₁, opened₁⟩, first, others⟩ := Option.bind_eq_some_iff.1 h
    rw [List.length_cons] at le
    have next : step limit' (mode, opened) s.code = some (mode₁, opened₁) ∧ opened₁ ≤ opened + 1 := by
      cases mode <;> grind -linarith [step]
    rw [next.1]
    exact ih others (by omega)

theorem Closed.few (h : Closed limit w) : Closed w.length w :=
  scan_few h (Nat.zero_add _).le

theorem closed_flatten {pieces : List (List Scalar)} (h : ∀ piece ∈ pieces, Closed limit piece) :
    Closed limit pieces.flatten := by
  induction pieces with
  | nil => exact closed_nil
  | cons piece rest ih =>
    obtain ⟨here, others⟩ := List.forall_mem_cons.1 h
    exact here.append (ih others)

/-- The code points of quotes and parentheses. -/
def brackets : List Nat := [34, 39, 40, 41]

theorem step_plain {opened code : Nat} (other : code ∉ brackets) :
    step limit (.plain, opened) code = some (.plain, opened) := by
  simp only [brackets, List.mem_cons, List.not_mem_nil, or_false, not_or] at other
  obtain ⟨text, pattern, left, right⟩ := other
  simp [step, text, pattern, left, right]

theorem closed_of_codes (h : ∀ s ∈ w, s.code ∉ brackets) : Closed limit w := by
  induction w with
  | nil => exact closed_nil
  | cons s w ih =>
    obtain ⟨here, others⟩ := List.forall_mem_cons.1 h
    rw [Closed, scan_cons, step_plain here]
    exact ih others

/-- What stands in parentheses is one group deeper. -/
theorem Closed.enclosed (h : Closed limit w) {left right : Scalar} (opens : left.code = 40)
    (closes : right.code = 41) : Closed (limit + 1) (left :: (w ++ [right])) := by
  have inside : Bootstrap.scan (limit + 1) (.plain, 1) w = some (.plain, 1) := h.scan (Nat.le_refl _)
  have enter : step (limit + 1) (.plain, 0) left.code = some (.plain, 1) := by simp [step, opens]
  have leave : step (limit + 1) (.plain, 1) right.code = some (.plain, 0) := by simp [step, closes]
  rw [Closed, scan_cons, enter, Option.bind_some, scan_append, inside, Option.bind_some, scan_cons,
    leave]
  rfl

end

/-! ### Quoted texts -/

/-- True of the character set of what stands for itself inside of quotes with a mark. -/
def IsInside (mark : Nat) (set : CharSet) : Prop :=
  ∀ s : Scalar, set.contains s.code = true ↔
    s.code ≠ 10 ∧ s.code ≠ 13 ∧ s.code ≠ mark ∧ s.code ≠ 92

theorem code_lt (s : Scalar) : s.code < 1114112 := by
  have valid := s.char.valid
  have eq : s.code = s.char.val.toNat := rfl
  unfold UInt32.isValidChar Nat.isValidChar at valid
  omega

theorem isInside_text : IsInside 34 ⟨[(0, 9), (11, 12), (14, 33), (35, 91), (93, 1114111)]⟩ := by
  intro s
  have high := code_lt s
  simp [CharSet.contains]
  omega

theorem isInside_pattern : IsInside 39 ⟨[(0, 9), (11, 12), (14, 38), (40, 91), (93, 1114111)]⟩ := by
  intro s
  have high := code_lt s
  simp [CharSet.contains]
  omega

theorem contains_notBreak (s : Scalar) : CharSet.notBreak.contains s.code = true ↔ s.code ≠ 10 := by
  have high := code_lt s
  simp [CharSet.notBreak, CharSet.contains, CharSet.maxCode]
  omega

section

variable {mark limit opened : Nat} {set : CharSet} {w : List Scalar}

/-- What may stand inside of quotes: characters that stand for themselves, and escapes. -/
def insideExpr (set : CharSet) : Expr := .alt (.one set) (.cat (.one (.single 92)) (.one .notBreak))

theorem mem_insideExpr {piece : List Scalar} : piece ∈ (insideExpr set).language ↔
    (∃ s, piece = [s] ∧ set.contains s.code = true) ∨
      ∃ s s', piece = [s, s'] ∧ s.code = 92 ∧ s'.code ≠ 10 := by
  constructor
  · rintro (⟨s, rfl, on⟩ | ⟨_, ⟨s, rfl, on⟩, _, ⟨s', rfl, on'⟩, rfl⟩)
    · exact .inl ⟨s, rfl, on⟩
    · exact .inr ⟨s, s', rfl, CharSet.contains_single.1 on, (contains_notBreak s').1 on'⟩
  · rintro (⟨s, rfl, on⟩ | ⟨s, s', rfl, code, other⟩)
    · exact .inl ⟨s, rfl, on⟩
    · exact .inr ⟨_, ⟨s, rfl, CharSet.contains_single.2 code⟩, _, ⟨s', rfl, (contains_notBreak s').2 other⟩, rfl⟩

theorem mem_quotedExpr : w ∈ (quotedExpr mark set).language ↔
    ∃ (left : Scalar) (inside : List Scalar) (right : Scalar), w = left :: (inside ++ [right]) ∧
      left.code = mark ∧ right.code = mark ∧
      inside ∈ multiples (insideExpr set).language fun _ => True := by
  constructor
  · rintro ⟨_, ⟨left, rfl, opens⟩, _, ⟨inside, mem, _, ⟨right, rfl, closes⟩, rfl⟩, rfl⟩
    exact ⟨left, inside, right, rfl, CharSet.contains_single.1 opens, CharSet.contains_single.1 closes, mem⟩
  · rintro ⟨left, inside, right, rfl, opens, closes, mem⟩
    exact ⟨_, ⟨left, rfl, CharSet.contains_single.2 opens⟩, _,
      ⟨inside, mem, _, ⟨right, rfl, CharSet.contains_single.2 closes⟩, rfl⟩, rfl⟩

theorem scan_inside (plain : IsInside mark set) {piece : List Scalar} (other : mark ≠ 92)
    (mem : piece ∈ (insideExpr set).language) :
    scan limit (.quoted mark, opened) piece = some (.quoted mark, opened) := by
  obtain ⟨s, rfl, on⟩ | ⟨s, s', rfl, code, other'⟩ := mem_insideExpr.1 mem
  · obtain ⟨lf, cr, stop, escape⟩ := (plain s).1 on
    simp [scan_cons, step, lf, cr, stop, escape]
  · simp [scan_cons, step, code, other', Ne.symm other]

/-- A quoted text is closed. -/
theorem closed_quoted (plain : IsInside mark set) (isMark : mark = 34 ∨ mark = 39)
    (mem : w ∈ (quotedExpr mark set).language) : Closed limit w := by
  obtain ⟨left, inside, right, rfl, opens, closes, mem⟩ := mem_quotedExpr.1 mem
  obtain ⟨pieces, -, rfl, all⟩ := mem_multiples.1 mem
  have within : scan limit (.quoted mark, 0) pieces.flatten = some (.quoted mark, 0) := by
    clear * - plain isMark all
    induction pieces with
    | nil => rfl
    | cons piece rest ih =>
      obtain ⟨here, others⟩ := List.forall_mem_cons.1 all
      rw [List.flatten_cons, scan_append, scan_inside plain (by omega) here]
      exact ih others
  have enter : step limit (.plain, 0) left.code = some (.quoted mark, 0) := by
    simp only [step, opens]
    rw [if_neg (by omega), if_neg (by omega), if_pos isMark]
  have leave : step limit (.quoted mark, 0) right.code = some (.plain, 0) := by
    simp only [step, closes]
    rw [if_neg (by omega)]
    simp
  rw [Closed, scan_cons, enter, Option.bind_some, scan_append, within, Option.bind_some, scan_cons,
    leave]
  rfl

theorem cons_mem_multiples {l : Language Scalar} {piece rest : List Scalar} (mem : piece ∈ l)
    (mem' : rest ∈ multiples l fun _ => True) : piece ++ rest ∈ multiples l fun _ => True := by
  obtain ⟨pieces, -, rfl, all⟩ := mem_multiples.1 mem'
  exact mem_multiples.2 ⟨piece :: pieces, trivial, rfl, List.forall_mem_cons.2 ⟨mem, all⟩⟩

/-- A reader that is outside of quotes at the end has found the end of the quotes. By induction on the
    text, also from after a backslash. -/
theorem exists_quoted (plain : IsInside mark set) {state : Nat} (w : List Scalar) :
    (∀ opened, scan limit (.quoted mark, opened) w = some (.plain, state) →
      ∃ (inside : List Scalar) (right : Scalar) (rest : List Scalar),
        w = inside ++ right :: rest ∧ right.code = mark ∧
        inside ∈ multiples (insideExpr set).language fun _ => True) ∧
    (∀ opened, scan limit (.escaped mark, opened) w = some (.plain, state) →
      ∃ (s : Scalar) (inside : List Scalar) (right : Scalar) (rest : List Scalar),
        w = s :: (inside ++ right :: rest) ∧ s.code ≠ 10 ∧ right.code = mark ∧
        inside ∈ multiples (insideExpr set).language fun _ => True) := by
  induction w with
  | nil => exact ⟨nofun, nofun⟩
  | cons s w ih =>
    obtain ⟨inside, escaped⟩ := ih
    refine ⟨fun opened h => ?_, fun opened h => ?_⟩
    · rw [scan_cons, step] at h
      split at h
      · cases h
      · rename_i noBreak
        split at h
        · rename_i stop
          exact ⟨[], s, w, rfl, stop, mem_multiples.2 ⟨[], trivial, rfl, nofun⟩⟩
        · rename_i other
          split at h
          · rename_i escape
            obtain ⟨s', more, right, rest, rfl, known, stop, mem⟩ := escaped opened h
            refine ⟨[s, s'] ++ more, right, rest, rfl, stop, cons_mem_multiples ?_ mem⟩
            exact mem_insideExpr.2 (.inr ⟨s, s', rfl, escape, known⟩)
          · rename_i itself
            obtain ⟨more, right, rest, rfl, stop, mem⟩ := inside opened h
            refine ⟨[s] ++ more, right, rest, rfl, stop, cons_mem_multiples ?_ mem⟩
            exact mem_insideExpr.2 (.inl ⟨s, rfl, (plain s).2 ⟨by omega, by omega, other, itself⟩⟩)
    · rw [scan_cons, step] at h
      split at h
      · cases h
      · rename_i known
        obtain ⟨more, right, rest, rfl, stop, mem⟩ := inside opened h
        exact ⟨s, more, right, rest, rfl, known, stop, mem⟩

end

/-! ### The rules of the grammar -/

/-- True of a rule whose texts are all closed. -/
def AllClosed (limit : Nat) (r : Rule) : Prop := ∀ w ∈ r.expr.language, Closed limit w

/-- True of a rule whose expression is put together from those of its entries, at every depth. -/
structure Legal (r : Rule) : Prop where
  sound : Sound r
  read : IsRead r
  texts : TextsUtf8 r

section

variable {r : Rule} {how : Combinator} {entries : List (Entry Rule)} {limit limit' h c : Nat}

theorem legal_of_modest (modest : Modest (.combine tag how entries) h c) (fits : h < maxHeight) :
    Legal (.combine tag how entries) := ⟨modest.sound, modest_isRead modest fits, modest.plain.texts⟩

theorem Legal.entry (legal : Legal (.combine tag how entries)) {e : Entry Rule} (mem : e ∈ entries) :
    Legal e.rule where
  sound := legal.sound.entry (mem_reach mem)
  read := (legal.read.combine legal.sound.even).1 e mem
  texts := legal.texts.entry mem

theorem closed_joins (how : Combinator) {es : List Expr}
    (closed : ∀ e ∈ es, ∀ w ∈ e.language, Closed limit w) :
    ∀ w ∈ (how.joins es).language, Closed limit w := by
  intro w mem
  unfold Combinator.joins at mem
  split at mem
  · by_cases none : es = []
    · subst none
      rw [(Language.mem_one w).1 mem]
      exact closed_nil
    · obtain ⟨e, here, mem⟩ := (Expr.mem_language_choice none).1 mem
      exact closed e here w mem
  · obtain ⟨pieces, all, rfl⟩ := Expr.mem_language_concat.1 mem
    refine closed_flatten fun piece here => ?_
    obtain ⟨e, here, mem⟩ := exists_of_forall₂ all.flip here
    exact closed e here piece mem

/-- What is put together from closed texts is closed. -/
theorem Legal.allClosed (legal : Legal (.combine tag how entries))
    (closed : ∀ e ∈ entries, AllClosed limit e.rule) : AllClosed limit (.combine tag how entries) := by
  have entry : ∀ x ∈ entries.map exprOf, ∀ w ∈ x.language, Closed limit w := by
    intro x here w mem
    obtain ⟨e, entry, rfl⟩ := List.mem_map.1 here
    rw [language_exprOf] at mem
    exact closed e entry w mem
  have joined := closed_joins how entry
  have several {allowed : Nat → Prop} :
      ∀ w ∈ multiples (how.joins (entries.map exprOf)).language allowed, Closed limit w := by
    intro w mem
    obtain ⟨pieces, -, rfl, all⟩ := mem_multiples.1 mem
    exact closed_flatten fun piece mem => joined piece (all piece mem)
  intro w mem
  rw [(legal.sound.regroups_combine legal.read legal.texts).language_eq] at mem
  cases how with
  | seq | oneOf => exact joined w mem
  | optional =>
    obtain mem | mem := mem
    · exact joined w mem
    · rw [Set.mem_singleton_iff.1 mem]
      exact closed_nil
  | zeroOrMore isLazy | oneOrMore isLazy => exact several w mem

/-- Characters other than brackets are closed. -/
theorem allClosed_of_avoids (avoids : ∀ code ∈ brackets, r.expr.avoids code = true) :
    AllClosed limit r := fun w mem => closed_of_codes fun s here bracket =>
  Expr.code_ne_of_mem_language (avoids s.code bracket) w mem s here rfl

theorem codes_ascii {literal : Bytes} (ascii : ∀ b ∈ literal, b < 0x80) :
    literal.scalars.map Scalar.code = literal.map UInt8.toNat := by
  have scalars := scalars_ascii_append ascii []
  rw [List.append_nil, scalars_nil, List.append_nil] at scalars
  rw [scalars, List.map_map]
  exact List.map_congr_left fun b mem => Scalar.code_ascii (ascii b mem)

theorem allClosed_text {literal : Bytes} (ascii : ∀ b ∈ literal, b < 0x80)
    (other : ∀ b ∈ literal, b.toNat ∉ brackets) : AllClosed limit (text literal) := by
  intro w mem
  have codes := (mem_text.1 mem).trans (codes_ascii ascii)
  refine closed_of_codes fun s here => ?_
  have known : s.code ∈ literal.map UInt8.toNat := codes ▸ List.mem_map_of_mem here
  obtain ⟨b, mem, eq⟩ := List.mem_map.1 known
  exact eq ▸ other b mem

/-- A combination that stands as a leaf takes the same texts. -/
theorem language_leaf (modest : Modest (.combine tag how entries) h c) (fits : h < maxHeight) :
    (leaf (.combine tag how entries)).expr.language = (Rule.combine tag how entries).expr.language := by
  obtain ⟨x, shape, p, read, -⟩ := modest.whole fits
  rw [leaf, modest.plain.expr_asLeaf modest.unnamed modest.sound.even read.read,
    Expr.language_nameless]

theorem allClosed_leaf (modest : Modest (.combine tag how entries) h c) (fits : h < maxHeight)
    (closed : AllClosed limit (.combine tag how entries)) :
    AllClosed limit (leaf (.combine tag how entries)) := by
  rwa [AllClosed, language_leaf modest fits]

theorem mem_seq {entries : List (Entry Rule)} (legal : Legal (seq entries)) {w : List Scalar} :
    w ∈ (seq entries).expr.language ↔
      ∃ pieces, List.Forall₂ (fun piece e => piece ∈ e.rule.expr.language) pieces entries ∧
        w = pieces.flatten :=
  legal.sound.mem_language_seq legal.read legal.texts

theorem mem_oneOf {entries : List (Entry Rule)} (legal : Legal (oneOf entries)) (several : entries ≠ [])
    {w : List Scalar} :
    w ∈ (oneOf entries).expr.language ↔ ∃ e ∈ entries, w ∈ e.rule.expr.language :=
  legal.sound.mem_language_oneOf legal.read legal.texts several

/-- A text that is one character takes one character. -/
theorem exists_of_mem_text {literal : Bytes} (code : Nat) (ascii : ∀ b ∈ literal, b < 0x80)
    (one : literal.map UInt8.toNat = [code]) {w : List Scalar}
    (mem : w ∈ (text literal).expr.language) : ∃ s, w = [s] ∧ s.code = code := by
  have codes := (mem_text.1 mem).trans (codes_ascii ascii)
  rw [one] at codes
  exact List.map_eq_singleton_iff.1 codes

/-- Closed texts in parentheses are closed. -/
theorem allClosed_enclosed {e : Entry Rule}
    (legal : Legal (seq [item (text "("), item optSpace, e, item optSpace, item (text ")")]))
    (blanks : AllClosed limit optSpace) (closed : AllClosed limit e.rule) :
    AllClosed (limit + 1)
      (seq [item (text "("), item optSpace, e, item optSpace, item (text ")")]) := by
  intro w mem
  obtain ⟨pieces, all, rfl⟩ := (mem_seq legal).1 mem
  obtain ⟨left, _, opens, all₁, rfl⟩ := List.forall₂_cons_right_iff.1 all
  obtain ⟨before, _, first, all₂, rfl⟩ := List.forall₂_cons_right_iff.1 all₁
  obtain ⟨inside, _, middle, all₃, rfl⟩ := List.forall₂_cons_right_iff.1 all₂
  obtain ⟨after, _, last, all₄, rfl⟩ := List.forall₂_cons_right_iff.1 all₃
  obtain ⟨right, _, closes, all₅, rfl⟩ := List.forall₂_cons_right_iff.1 all₄
  cases all₅
  obtain ⟨left, rfl, left_code⟩ := exists_of_mem_text 40 (by decide) (by decide) opens
  obtain ⟨right, rfl, right_code⟩ := exists_of_mem_text 41 (by decide) (by decide) closes
  have within := ((blanks before first).append (closed inside middle)).append (blanks after last)
  simpa using within.enclosed left_code right_code

end

section

variable {limit : Nat}

theorem legal_optSpace : Legal optSpace := legal_of_modest modest_optSpace (by decide)

theorem allClosed_blank : AllClosed limit blank := by
  refine allClosed_of_avoids fun code bracket => ?_
  rw [show blank.expr = _ from (simple_of_getElem 0 rfl).expr_eq tag]
  revert code
  decide

theorem allClosed_optSpace : AllClosed limit optSpace :=
  legal_optSpace.allClosed (List.forall_mem_singleton.2 allClosed_blank)

theorem allClosed_space : AllClosed limit space :=
  (legal_of_modest modest_space (by decide)).allClosed (List.forall_mem_singleton.2 allClosed_blank)

theorem allClosed_optSuffix : AllClosed limit optSuffix := by
  refine (legal_of_modest modest_optSuffix (by decide)).allClosed (List.forall_mem_singleton.2 ?_)
  refine (legal_of_modest modest_suffix (by decide)).allClosed ?_
  have signs : ∀ sign ∈ [("*?" : Bytes), "+?", "?", "*", "+"],
      (∀ b ∈ sign, b < 0x80) ∧ ∀ b ∈ sign, b.toNat ∉ brackets := by decide
  have closed {sign : Bytes} (mem : sign ∈ [("*?" : Bytes), "+?", "?", "*", "+"]) :
      AllClosed limit (text sign) := allClosed_text (signs sign mem).1 (signs sign mem).2
  simpa [item] using ⟨closed (by simp), closed (by simp), closed (by simp), closed (by simp),
    closed (by simp)⟩

theorem allClosed_quotedText : AllClosed limit quotedText := by
  rw [AllClosed, show quotedText.expr = _ from (simple_of_getElem 5 rfl).expr_eq tag]
  exact fun w mem => closed_quoted isInside_text (.inl rfl) mem

theorem allClosed_quotedPattern : AllClosed limit quotedPattern := by
  rw [AllClosed, show quotedPattern.expr = _ from (simple_of_getElem 6 rfl).expr_eq tag]
  exact fun w mem => closed_quoted isInside_pattern (.inr rfl) mem

theorem allClosed_bare : AllClosed limit bare := by
  refine allClosed_of_avoids fun code bracket => ?_
  rw [show bare.expr = _ from (simple_of_getElem 7 rfl).expr_eq tag]
  revert code
  decide

theorem legal_literal : Legal literal := legal_of_modest modest_literal (by decide)

theorem allClosed_literal : AllClosed limit literal :=
  legal_literal.allClosed (by simpa using ⟨allClosed_quotedText, allClosed_quotedPattern, allClosed_bare⟩)

theorem allClosed_anyLiteral : AllClosed limit anyLiteral :=
  allClosed_leaf modest_literal (by decide) allClosed_literal

theorem allClosed_separator : AllClosed limit separator := by
  have legal := legal_of_modest modest_separator (by decide)
  have bar : AllClosed limit (text "|") := allClosed_text (by decide) (by decide)
  have barred : AllClosed limit (seq [item optSpace, item (text "|"), item optSpace]) :=
    (legal.entry (e := item (seq _)) (List.mem_cons_self ..)).allClosed
      (by simpa [item] using ⟨allClosed_optSpace, bar, allClosed_optSpace⟩)
  exact legal.allClosed (by simpa using ⟨barred, allClosed_space⟩)

/-- One or more closed texts with others between them. -/
theorem allClosed_listOf {t s : Rule} (legal : Legal (seq [item t, item (many [item s, item t])]))
    (one : AllClosed limit t) (between : AllClosed limit s) :
    AllClosed limit (seq [item t, item (many [item s, item t])]) := by
  have more : AllClosed limit (many [item s, item t]) :=
    (legal.entry (e := item (many _)) (by simp)).allClosed (by simpa using ⟨between, one⟩)
  exact legal.allClosed (by simpa using ⟨one, more⟩)

/-- A token with groups in it up to a depth, by induction on the depth. -/
theorem allClosed_tokenAt (depth : Nat) (legal : Legal (tokenAt depth)) :
    AllClosed depth (tokenAt depth) := by
  induction depth with
  | zero => exact legal.allClosed (by simpa using ⟨allClosed_anyLiteral, allClosed_optSuffix⟩)
  | succ depth ih =>
    have atom := legal.entry (e := item (oneOf _)) (List.mem_cons_self ..)
    have group := atom.entry (e := item (groupOf _)) (List.mem_cons_self ..)
    have choices : Legal (alternativesOf (tokenAt depth)) :=
      group.entry (e := item (alternativesOf _)) (by simp)
    have one : Legal (tokenAt depth) := choices.entry (e := item (tokenAt depth)) (by simp)
    have listed : AllClosed depth (alternativesOf (tokenAt depth)) :=
      allClosed_listOf choices (ih one) allClosed_separator
    have enclosed : AllClosed (depth + 1) (groupOf (tokenAt depth)) :=
      allClosed_enclosed group allClosed_optSpace listed
    have atoms := atom.allClosed (by simpa using ⟨enclosed, allClosed_anyLiteral⟩)
    exact legal.allClosed (by simpa using ⟨atoms, allClosed_optSuffix⟩)

theorem allClosed_innerToken : AllClosed 3 innerToken :=
  allClosed_tokenAt (maxDepth - 1) (legal_of_modest modest_innerToken (by decide))

theorem allClosed_alternatives : AllClosed 3 (leaf (alternativesOf innerToken)) :=
  allClosed_leaf modest_alternatives (by decide)
    (allClosed_listOf (legal_of_modest modest_alternatives (by decide)) allClosed_innerToken
      allClosed_separator)

theorem allClosed_sequence : AllClosed 3 (leaf (sequenceOf innerToken)) :=
  allClosed_leaf modest_sequence (by decide)
    (allClosed_listOf (legal_of_modest modest_sequence (by decide)) allClosed_innerToken
      allClosed_space)

theorem legal_group : Legal group := legal_of_modest modest_group (by decide)

theorem legal_atom : Legal atom := legal_of_modest modest_atom (by decide)

theorem legal_token : Legal token := legal_of_modest modest_token (by decide)

theorem legal_alternative : Legal alternative := legal_of_modest modest_alternative (by decide)

theorem allClosed_atom : AllClosed 4 atom := by
  have group : AllClosed 4 group := allClosed_enclosed (e := ⟨"alternatives", _⟩) legal_group
    allClosed_optSpace allClosed_alternatives
  exact legal_atom.allClosed (by simpa using ⟨group, allClosed_literal⟩)

/-- What is taken for a token is closed. -/
theorem allClosed_token : AllClosed 4 token :=
  legal_token.allClosed (by simpa using ⟨allClosed_atom, allClosed_optSuffix⟩)

/-- What is taken for an alternative is closed. -/
theorem allClosed_alternative : AllClosed 3 alternative := by
  have bar : AllClosed 3 (text "|") := allClosed_text (by decide) (by decide)
  have option : AllClosed 3 (optional (text "|")) :=
    (legal_alternative.entry (e := item (optional _)) (by simp)).allClosed
      (List.forall_mem_singleton.2 bar)
  exact legal_alternative.allClosed
    (by simpa using ⟨allClosed_sequence, allClosed_optSpace, option, allClosed_optSpace⟩)

end

end Bootstrap

end Rulebook

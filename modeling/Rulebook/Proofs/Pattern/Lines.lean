import Rulebook.Proofs.Pattern.Leads
import Rulebook.Proofs.Text.Lines

/-!
# Expressions that take whole lines

An expression that takes whole lines finds, in a text, one match for each of the lines that it
takes: `Expr.TakesLines.forall₂_findAll`. No match starts inside a line, ends inside one or covers
several.
-/

namespace Rulebook

namespace Bytes

/-- Lines with the offsets where they start, if the first starts at an offset. -/
def placed (offset : Nat) : List Bytes → List (Nat × Bytes)
  | [] => []
  | l :: rest => (offset, l) :: placed (offset + l.length) rest

theorem placed_append (offset : Nat) (ls ls' : List Bytes) :
    placed offset (ls ++ ls') =
      placed offset ls ++ placed (offset + ls.flatten.length) ls' := by
  induction ls generalizing offset with
  | nil => simp [placed]
  | cons l rest ih => simp [placed, ih, Nat.add_assoc]

theorem filter_placed {takes : Bytes → Bool} {ls : List Bytes} (none : ∀ l ∈ ls, takes l = false)
    (offset : Nat) : (placed offset ls).filter (takes ·.2) = [] := by
  induction ls generalizing offset with
  | nil => rfl
  | cons l rest ih =>
    obtain ⟨here, others⟩ := List.forall_mem_cons.1 none
    simp [placed, here, ih others]

/-- No character of a line but the last is a line break. -/
theorem Lines.code_ne {l : Bytes} {rest : List Bytes} (h : Lines (l :: rest)) {front back : List Scalar}
    (eq : l.scalars = front ++ back) (some_char : back ≠ []) : ∀ s ∈ front, s.code ≠ 10 := by
  intro s mem code
  cases h with
  | last _ whole =>
    exact whole (mem_of_code_eq (by decide) code (eq ▸ List.mem_append_left back mem))
  | @cons l _ whole =>
    rw [scalars_append_ascii l (by decide) []] at eq
    obtain ⟨back, last, rfl⟩ := (List.eq_nil_or_concat back).resolve_left some_char
    rw [scalars_cons_ascii (by decide), scalars_nil, List.concat_eq_append,
      ← List.append_assoc] at eq
    have front' := (List.append_inj' eq rfl).1
    exact whole (mem_of_code_eq (by decide) code
      (front' ▸ List.mem_append_left back mem))

end Bytes

namespace Pattern

open Bytes

theorem Cursor.holds_beginLine {c : Cursor} :
    c.holds .beginLine = true ↔ c.before = none ∨ c.before = some '\n' := by
  simp [Cursor.holds]

/-- After a line that is not the last, the next line begins. -/
theorem Cursor.holds_beginLine_advance {l : Bytes} {rest : List Bytes} (h : Lines (l :: rest))
    (more : rest ≠ []) (c : Cursor) (after : List Scalar) :
    (c.advance l.scalars after).holds .beginLine = true := by
  cases h with
  | last => exact absurd rfl more
  | @cons l =>
    rw [holds_beginLine, advance, scalars_append_ascii l (by decide) [],
      scalars_cons_ascii (by decide)]
    simp
    decide

/-- Inside a line no line begins. -/
theorem Cursor.not_holds_beginLine {l : Bytes} {rest : List Bytes} (h : Lines (l :: rest))
    {taken back : List Scalar} (eq : l.scalars = taken ++ back) (some_char : taken ≠ [])
    (more : back ≠ []) (c : Cursor) (after : List Scalar) :
    ¬ (c.advance taken after).holds .beginLine = true := by
  obtain ⟨front, last, rfl⟩ := (List.eq_nil_or_concat taken).resolve_left some_char
  have code := h.code_ne eq more last (by simp)
  rw [holds_beginLine, advance, List.concat_eq_append, List.getLast?_concat]
  simp only [Option.map_some, Option.some_or, reduceCtorEq, Option.some.injEq, false_or]
  intro isBreak
  rw [Scalar.code, isBreak] at code
  exact code rfl

/-- Where a line begins in a text is where one of its lines begins. -/
theorem Cursor.exists_line {ls : List Bytes} (lines : Lines ls) {c d : Cursor}
    (text : c.rest = scalars ls.flatten) (onward : d ∈ c.onward)
    (begins : d.holds .beginLine = true) (more : d.rest ≠ []) :
    ∃ (skipped : List Bytes) (l : Bytes) (later : List Bytes), ls = skipped ++ l :: later ∧
      d = c.advance (scalars skipped.flatten) (scalars (l :: later).flatten) := by
  induction ls generalizing c with
  | nil =>
    obtain ⟨taken, eq, -⟩ := Cursor.mem_onward.1 onward
    rw [text, List.flatten_nil, scalars_nil, List.nil_eq_append_iff] at eq
    exact absurd eq.2 more
  | cons l rest ih =>
    obtain ⟨taken, eq, place⟩ := Cursor.mem_onward.1 onward
    rw [text, List.flatten_cons, lines.scalars_append] at eq
    by_cases nothing : taken = []
    · subst nothing
      refine ⟨[], l, rest, rfl, ?_⟩
      rw [place, List.flatten_cons, lines.scalars_append, eq]
      rfl
    by_cases whole : ∃ past, taken = l.scalars ++ past
    · obtain ⟨past, rfl⟩ := whole
      have tail : scalars rest.flatten = past ++ d.rest := by simpa using eq
      have next : d ∈ (c.advance l.scalars (scalars rest.flatten)).onward := by
        refine Cursor.mem_onward.2 ⟨past, tail, ?_⟩
        rw [tail, Cursor.advance_advance]
        exact place
      obtain ⟨skipped, l', later, rfl, here⟩ := ih lines.tail rfl next
      have front : Lines (l :: skipped) :=
        lines.sublist ((List.sublist_append_left ..).cons_cons l)
      refine ⟨l :: skipped, l', later, rfl, ?_⟩
      rw [here, lines.tail.scalars_flatten_append, Cursor.advance_advance,
        List.flatten_cons (l := l), front.scalars_append]
    · obtain ⟨past, eq', -⟩ | ⟨back, split, -⟩ := List.append_eq_append_iff.1 eq
      · exact absurd ⟨past, eq'⟩ whole
      · have inside : back ≠ [] := by
          rintro rfl
          exact whole ⟨[], by simp [split]⟩
        exact absurd begins (place ▸ Cursor.not_holds_beginLine lines split nothing inside c _)

namespace Expr

/-- True of an expression that takes certain whole lines and nothing else. -/
structure TakesLines (e : Expr) (takes : Bytes → Bool) : Prop where
  begins : ∀ {c d}, e.Leads c d → c.holds .beginLine = true
  some_char : ∀ {c d}, e.Leads c d → c.rest ≠ []
  line : ∀ {l rest c d}, Lines (l :: rest) → c.holds .beginLine = true →
    c.rest = l.scalars ++ scalars rest.flatten →
    (e.Leads c d ↔ takes l = true ∧ d = c.advance l.scalars (scalars rest.flatten))

/-- A match of a whole line, which is followed by others. -/
structure LineAt (e : Expr) (c : Cursor) (l : Bytes) (rest : List Bytes) (f : Program.Found) :
    Prop where
  begins : c.holds .beginLine = true
  lines : Lines (l :: rest)
  text : c.rest = l.scalars ++ scalars rest.flatten
  found : (Program.ofExpr e).MatchAt c f
  stop : f.stop = c.advance l.scalars (scalars rest.flatten)

variable {e : Expr} {takes : Bytes → Bool}

theorem LineAt.finish {c : Cursor} {l : Bytes} {rest : List Bytes} {f : Program.Found}
    (h : e.LineAt c l rest f) : f.finish = c.offset + l.length := by
  rw [Program.Found.finish, h.stop, Cursor.offset_advance, ofScalars_scalars]

/-- Lines in which there is no match are not taken. -/
theorem TakesLines.not_takes (h : e.TakesLines takes) {ls : List Bytes} (lines : Lines ls) {c : Cursor}
    (begins : ls ≠ [] → c.holds .beginLine = true) (text : c.rest = scalars ls.flatten)
    {skipped later : List Bytes} (eq : ls = skipped ++ later)
    (none : ∀ d ∈ c.onward, d.offset < c.offset + skipped.flatten.length → ∀ d', ¬ e.Leads d d') :
    ∀ l ∈ skipped, takes l = false := by
  induction skipped generalizing c ls with
  | nil => simp
  | cons l skipped ih =>
    subst eq
    rw [List.cons_append] at lines text begins
    have begins := begins (by simp)
    rw [List.flatten_cons, lines.scalars_append] at text
    have length : (ofScalars l.scalars).length = l.length := by rw [ofScalars_scalars]
    have some_byte := List.length_pos_iff.2 lines.ne_nil
    refine List.forall_mem_cons.2 ⟨?_, ?_⟩
    · by_contra taken
      refine none c (Cursor.mem_onward.2 ⟨[], rfl, rfl⟩) ?_ _
        ((h.line lines begins text).2 ⟨by simpa using taken, rfl⟩)
      rw [List.flatten_cons, List.length_append]
      omega
    · have onward := Cursor.advance_mem_onward text
      refine ih lines.tail (fun more => Cursor.holds_beginLine_advance lines more c _) rfl rfl ?_
      intro d mem low
      refine none d (Cursor.onward_trans onward mem) ?_
      rw [Cursor.offset_advance, length] at low
      rw [List.flatten_cons, List.length_append]
      omega

/-- The leftmost match in a text is that of the first line that is taken. -/
theorem TakesLines.find? (h : e.TakesLines takes) {ls : List Bytes} (lines : Lines ls) {c : Cursor}
    (begins : ls ≠ [] → c.holds .beginLine = true) (text : c.rest = scalars ls.flatten) :
    match (Program.ofExpr e).find? c with
    | none => ∀ l ∈ ls, takes l = false
    | some f => ∃ skipped l later, ls = skipped ++ l :: later ∧ (∀ l ∈ skipped, takes l = false) ∧
        takes l = true ∧
        e.LineAt (c.advance (scalars skipped.flatten) (scalars (l :: later).flatten)) l later f := by
  have spec := Program.find?_spec e (c := c) (text ▸ wide_scalars _)
  cases found : (Program.ofExpr e).find? c with
  | none =>
    rw [found] at spec
    refine h.not_takes lines begins text (List.append_nil ls).symm ?_
    rintro d mem - d' ⟨m, passage⟩
    exact spec d mem d' m (reaches_iff.2 passage)
  | some f =>
    rw [found] at spec
    obtain ⟨d, onward, matched, leftmost⟩ := spec
    have leads : e.Leads d f.stop := ⟨_, reaches_iff.1 matched.path⟩
    obtain ⟨skipped, l, later, rfl, rfl⟩ :=
      Cursor.exists_line lines text onward (h.begins leads) (h.some_char leads)
    have length : (ofScalars (scalars skipped.flatten)).length = skipped.flatten.length := by
      rw [ofScalars_scalars]
    have lines' : Lines (l :: later) := lines.sublist (List.sublist_append_right ..)
    have here := (h.line lines' (h.begins leads) lines'.scalars_append).1 leads
    refine ⟨skipped, l, later, rfl, ?_, here.1,
      h.begins leads, lines', lines'.scalars_append, matched, here.2⟩
    refine h.not_takes lines begins text rfl ?_
    rintro d mem low d' ⟨m, passage⟩
    exact leftmost d mem (by rwa [Cursor.offset_advance, length]) d' m (reaches_iff.2 passage)

theorem TakesLines.finish_ne (h : e.TakesLines takes) {ls : List Bytes} (lines : Lines ls) {c : Cursor}
    (begins : ls ≠ [] → c.holds .beginLine = true) (text : c.rest = scalars ls.flatten)
    {f : Program.Found} (found : (Program.ofExpr e).find? c = some f) : f.finish ≠ c.offset := by
  have first := h.find? lines begins text
  rw [found] at first
  obtain ⟨skipped, l, later, -, -, -, line⟩ := first
  have some_byte := List.length_pos_iff.2 line.lines.ne_nil
  rw [line.finish, Cursor.offset_advance]
  omega

/-- The matches in a text are those of the lines that are taken, in order. By induction on the
    matches. -/
theorem TakesLines.forall₂_lists (h : e.TakesLines takes) {last : Option Nat} {c : Cursor}
    {fs : List Program.Found} (lists : Program.Lists (Program.ofExpr e) last c fs)
    {ls : List Bytes} (lines : Lines ls) (begins : ls ≠ [] → c.holds .beginLine = true)
    (text : c.rest = scalars ls.flatten) :
    List.Forall₂ (fun p f => ∃ d ∈ c.onward, ∃ rest, d.offset = p.1 ∧ e.LineAt d p.2 rest f)
      ((placed c.offset ls).filter (takes ·.2)) fs := by
  induction lists generalizing ls with
  | none found =>
    have first := h.find? lines begins text
    rw [found] at first
    rw [filter_placed first]
    exact .nil
  | ended found finish => exact absurd finish (h.finish_ne lines begins text found)
  | empty found finish => exact absurd finish (h.finish_ne lines begins text found)
  | @full last c f fs found finish others ih =>
    have first := h.find? lines begins text
    rw [found] at first
    obtain ⟨skipped, l, later, rfl, none, taken, line⟩ := first
    have length : (ofScalars (scalars skipped.flatten)).length = skipped.flatten.length := by
      rw [ofScalars_scalars]
    have onward := Cursor.advance_mem_onward (text.trans lines.scalars_flatten_append)
    have stop : f.stop.offset = c.offset + skipped.flatten.length + l.length := by
      rw [← length]
      exact line.finish
    rw [placed_append, placed, List.filter_append, filter_placed none, List.nil_append,
      List.filter_cons_of_pos (by exact taken), ← stop]
    refine .cons ⟨_, onward, later, by rw [Cursor.offset_advance, length], line⟩ ?_
    have next := ih line.lines.tail
      (fun more => line.stop ▸ Cursor.holds_beginLine_advance line.lines more _ _)
      (show f.stop.rest = scalars later.flatten from line.stop ▸ rfl)
    refine next.imp fun p f ⟨d, mem, rest, known⟩ => ?_
    exact ⟨d, Cursor.onward_trans (Program.stop_mem_onward found) mem, rest, known⟩

/-- The matches in a text are those of the lines that are taken, in order. -/
theorem TakesLines.forall₂_findAll (h : e.TakesLines takes) (text : Bytes) :
    List.Forall₂ (fun p f => ∃ d ∈ (Cursor.start text).onward, ∃ rest, d.offset = p.1 ∧
        e.LineAt d p.2 rest f)
      ((placed 0 (cutLines text)).filter (takes ·.2))
      ((Program.ofExpr e).findAll none (.start text)) :=
  h.forall₂_lists (Program.lists_findAll ..) (lines_cutLines text) (fun _ => rfl)
    (by rw [flatten_cutLines]; rfl)

end Expr

end Pattern

end Rulebook

import Rulebook.Proofs.Definition.Parts

/-!
# The forms of lines

What a comment and what a definition look like, byte by byte: a line is a comment if and only if it
has the form of one (`Bootstrap.recognises_comment_iff`), and a definition starts with the name that it
defines (`Bootstrap.isNamed_of_definition`).
-/

namespace Rulebook

open Pattern Bytes

namespace Bootstrap

open Rule

/-- True of spaces and tabs. -/
def Blanks (s : Bytes) : Prop := ∀ b ∈ s, b = 9 ∨ b = 32

/-- True of a line of which every character is blank. -/
def IsBlank (l : Bytes) : Prop := ∀ c ∈ l.scalars, isBlank c.char = true

/-- True of a line that is a comment with a content: blanks, the mark, the content and a line break,
    which the last line may lack. -/
def IsComment (l content : Bytes) : Prop :=
  ∃ before ending, l = before ++ 35 :: (content ++ ending) ∧ Blanks before ∧
    10 ∉ content ∧ 13 ∉ content ∧ ending ∈ [[], [10], [13, 10]]

/-- True of a line that starts with a name and an equals sign, with blanks around the name. -/
def IsNamed (l title : Bytes) : Prop :=
  ∃ before after more, l = before ++ (title ++ (after ++ 61 :: more)) ∧ Blanks before ∧ Blanks after ∧
    name.Matches title

/-! ### Blanks -/

theorem Blanks.ascii {s : Bytes} (h : Blanks s) : ∀ a ∈ s, a < 0x80 := by
  intro a mem
  obtain rfl | rfl := h a mem <;> decide

theorem Blanks.codes {s : Bytes} (h : Blanks s) : ∀ c ∈ s.scalars, c.code = 9 ∨ c.code = 32 := by
  intro c mem
  have whole := scalars_ascii_append h.ascii []
  rw [List.append_nil, scalars_nil, List.append_nil] at whole
  rw [whole, List.mem_map] at mem
  obtain ⟨a, here, rfl⟩ := mem
  rw [Scalar.code_ascii (h.ascii a here)]
  obtain rfl | rfl := h a here <;> decide

/-- Characters of ASCII are their bytes. -/
theorem bytes_of_code {s : Bytes} {c : Scalar} (mem : c ∈ s.scalars) {a : UInt8} (ascii : a < 0x80)
    (code : c.code = a.toNat) : c.bytes = [a] := by
  have low : a.toNat < 128 := ascii
  obtain ⟨b, -, ascii', rfl⟩ := exists_ascii_of_mem mem (by omega)
  rw [Scalar.code_ascii ascii'] at code
  rw [← UInt8.toNat_inj.1 code]
  rfl

theorem blanks_ofScalars {s : Bytes} {w : List Scalar} (sub : ∀ c ∈ w, c ∈ s.scalars)
    (codes : ∀ c ∈ w, c.code = 9 ∨ c.code = 32) : Blanks (ofScalars w) := by
  induction w with
  | nil => exact nofun
  | cons c w ih =>
    obtain ⟨here, others⟩ := List.forall_mem_cons.1 sub
    obtain ⟨code, codes⟩ := List.forall_mem_cons.1 codes
    have bytes : c.bytes = [9] ∨ c.bytes = [32] :=
      code.imp (bytes_of_code here (by decide)) (bytes_of_code here (by decide))
    rw [ofScalars_cons]
    intro b mem
    obtain mem | mem := List.mem_append.1 mem
    · obtain eq | eq := bytes <;> rw [eq] at mem <;> simp [List.mem_singleton.1 mem]
    · exact ih others codes b mem

/-! ### Comments -/

theorem ofScalars_break {s : Bytes} {ending : List Scalar} (sub : ∀ c ∈ ending, c ∈ s.scalars)
    (isBreak : IsBreak ending) : ofScalars ending ∈ [[], [10], [13, 10]] := by
  simp only [IsBreak, List.mem_cons, List.not_mem_nil, or_false, List.map_eq_nil_iff] at isBreak
  obtain both | single | rfl := isBreak
  · obtain ⟨cr, tail, rfl, code, eq⟩ := List.map_eq_cons_iff.1 both
    obtain ⟨lf, rfl, code'⟩ := List.map_eq_singleton_iff.1 eq
    rw [ofScalars_cons, ofScalars_cons, bytes_of_code (sub cr (by simp)) (a := 13) (by decide) code,
      bytes_of_code (sub lf (by simp)) (a := 10) (by decide) code']
    decide
  · obtain ⟨lf, rfl, code⟩ := List.map_eq_singleton_iff.1 single
    rw [ofScalars_cons, bytes_of_code (sub lf (by simp)) (a := 10) (by decide) code]
    decide
  · decide

theorem isBreak_of_mem {ending : Bytes} (mem : ending ∈ [[], [10], [13, 10]]) :
    IsBreak ending.scalars := by
  simp only [List.mem_cons, List.not_mem_nil, or_false] at mem
  obtain rfl | rfl | rfl := mem <;> (unfold IsBreak; decide)

/-- The characters of a comment. -/
theorem IsComment.scalars {l content : Bytes} (h : IsComment l content) :
    ∃ before ending : List Scalar, l.scalars = before ++ .ascii 35 :: (content.scalars ++ ending) ∧
      (∀ c ∈ before, c.code = 9 ∨ c.code = 32) ∧
      (∀ c ∈ content.scalars, c.code ≠ 10 ∧ c.code ≠ 13) ∧ IsBreak ending := by
  obtain ⟨before, ending, rfl, blanks, noLF, noCR, mem⟩ := h
  refine ⟨before.scalars, Bytes.scalars ending, ?_, blanks.codes,
    fun c mem => ⟨fun code => ?_, fun code => ?_⟩, isBreak_of_mem mem⟩
  · have tail : Bytes.scalars (content ++ ending) = content.scalars ++ Bytes.scalars ending := by
      simp only [List.mem_cons, List.not_mem_nil, or_false] at mem
      obtain rfl | rfl | rfl := mem
      · simp
      · exact scalars_append_ascii content (by decide) []
      · exact scalars_append_ascii content (by decide) [10]
    rw [scalars_append_ascii before (by decide), scalars_cons_ascii (by decide), tail]
  · exact noLF (mem_of_code_eq (a := 10) (by decide) code mem)
  · exact noCR (mem_of_code_eq (a := 13) (by decide) code mem)

/-- A line is a comment if and only if it has the form of one. -/
theorem recognises_comment_iff {l : Bytes} :
    comment.recognises l = true ↔ ∃ content, IsComment l content := by
  rw [recognises_iff, framed_comment.matches_iff modest_comment.sound (by simp [comment, seq, kind])
    accepted_comment]
  constructor
  · rintro ⟨w, mem, ending, isBreak, eq⟩
    obtain ⟨before, mark, content, rfl, codes, code, inside⟩ := mem_commentMiddle.1 mem
    have sub : ∀ c ∈ before ++ mark :: content ++ ending, c ∈ l.scalars := fun c mem => eq ▸ mem
    have legible : Legible content := by
      have whole := legible_scalars l
      rw [eq, List.append_assoc, List.cons_append, List.append_cons] at whole
      exact legible_of_append_left (legible_of_append_right whole)
    have whole := congrArg ofScalars eq
    rw [ofScalars_scalars, List.append_assoc, List.cons_append, ofScalars_append, ofScalars_cons,
      ofScalars_append, bytes_of_code (sub mark (by simp)) (a := 35) (by decide) code] at whole
    refine ⟨ofScalars content, ofScalars before, ofScalars ending, whole,
      blanks_ofScalars (fun c mem => sub c (by simp [mem])) codes, fun mem => ?_, fun mem => ?_,
      ofScalars_break (fun c mem => sub c (by simp [mem])) isBreak⟩
    · rw [← legible] at inside
      exact (inside _ (ascii_mem_scalars (by decide) mem)).1 (by decide)
    · rw [← legible] at inside
      exact (inside _ (ascii_mem_scalars (by decide) mem)).2 (by decide)
  · rintro ⟨content, h⟩
    obtain ⟨before, ending, eq, codes, inside, isBreak⟩ := h.scalars
    exact ⟨before ++ .ascii 35 :: content.scalars,
      mem_commentMiddle.2 ⟨before, .ascii 35, content.scalars, rfl, codes, by decide, inside⟩, ending,
      isBreak, by rw [eq]; simp⟩

/-- The content of a comment is the content of its tree. -/
theorem IsComment.content {l content : Bytes} (h : IsComment l content) {t : Tree} {offset : Nat}
    (built : comment.matcher.descend l offset = .ok t) :
    ∃ c, t.child? "content" = some c ∧ c.text = content := by
  obtain ⟨before, ending, eq, codes, inside, isBreak⟩ := h.scalars
  have taken := recognises_comment_iff.2 ⟨content, h⟩
  obtain ⟨-, c, here, text⟩ :=
    content_of_comment taken built eq codes (by decide) inside isBreak
  exact ⟨c, here, text.trans (ofScalars_scalars content)⟩

/-! ### Definitions -/

/-- The characters of a name are letters, digits and underscores. -/
theorem isWordCode_of_mem {w : List Scalar} (mem : w ∈ name.expr.language) :
    ∀ c ∈ w, isWordCode c.code = true := by
  intro c here
  by_contra other
  have avoids : Avoids c.code name := avoids_name (by simpa using other)
  have avoids := modest_name.sound.avoids_expr (modest_isRead modest_name (by decide))
    modest_name.plain.texts avoids
  exact Expr.code_ne_of_mem_language avoids w mem c here rfl

/-- A text that spells a name is a name. -/
theorem matches_name {s : Bytes} (mem : s.scalars ∈ name.expr.language) : name.Matches s := by
  refine (modest_name.sound.matches_iff_leads (by simp [name, seq, kind]) accepted_name s).2
    ⟨Cursor.advance (.start s) s.scalars [], rfl, ?_⟩
  refine (Expr.leads_of_free isFree_name).2 ⟨s.scalars, mem, ?_, ?_⟩
  · rw [Cursor.rest_advance, List.append_nil]
    rfl
  · rfl

/-- A definition starts with the name that it defines. -/
theorem isNamed_of_definition {l : Bytes} {offset : Nat} {t n : Tree}
    (taken : ruleEntry.recognises l = true) (built : ruleEntry.matcher.descend l offset = .ok t)
    (here : t.child? "name" = some n) : IsNamed l n.text := by
  have sound := modest_ruleEntry.sound
  obtain ⟨c, found, whole⟩ := sound.wholeNode nofun (recognises_iff.1 taken) built
  have searches := sound.searches whole.compiled
  obtain ⟨c₁, d₁, n', first, middle, last, built, name_eq⟩ :=
    Sound.part_of_seq [item lineStart, item optSpace] ⟨"name", name⟩
      [item optSpace, item (text "="), item optSpace, ⟨"value", value⟩, item optSpace,
        item (text ";"), item optSpace, item lineEnd] sound modest_ruleEntry.plain.texts
      whole.compiled searches.whole_names whole.passage whole.node (by decide) (by decide)
  cases here.symm.trans name_eq
  obtain ⟨word, mem, spans⟩ := (Expr.leads_of_free isFree_name).1 middle
  obtain ⟨e, begins, skipped⟩ := (Expr.leads_concat_append [exprOf (item lineStart)]
    [exprOf (item optSpace)]).1 first
  obtain ⟨-, rfl⟩ := leads_lineStart.1 ((leads_exprOf ..).1 begins)
  obtain ⟨before, codes, rest, -⟩ :=
    (Expr.leads_of_free isFree_optSpace).1 ((leads_exprOf ..).1 skipped)
  obtain ⟨f, blanks, more⟩ := (Expr.leads_concat_append [exprOf (item optSpace)]
    [exprOf (item (text "=")), exprOf (item optSpace), exprOf ⟨"value", value⟩,
      exprOf (item optSpace), exprOf (item (text ";")), exprOf (item optSpace),
      exprOf (item lineEnd)]).1 last
  obtain ⟨g, marks, -⟩ := (Expr.leads_concat_append [exprOf (item (text "="))]
    [exprOf (item optSpace), exprOf ⟨"value", value⟩, exprOf (item optSpace),
      exprOf (item (text ";")), exprOf (item optSpace), exprOf (item lineEnd)]).1 more
  obtain ⟨after, codes', rest', -⟩ :=
    (Expr.leads_of_free isFree_optSpace).1 ((leads_exprOf ..).1 blanks)
  obtain ⟨marks, mem', rest'', -⟩ :=
    (Expr.leads_of_free (isFree_textExpr "=")).1 ((leads_exprOf ..).1 marks)
  have one : marks.map Scalar.code = [61] := mem_text.1 mem'
  obtain ⟨mark, rfl, code⟩ := List.map_eq_singleton_iff.1 one
  have title : (n'.rename "name").text.scalars = word := by
    rw [Tree.text_rename, (modest_name.sound.text_of_descend nofun built).1]
    exact scalars_slice first.mem_onward spans.1 spans.2
  have eq : l.scalars = before ++ (word ++ (after ++ mark :: g.rest)) := by
    rw [show l.scalars = _ from rest, spans.1, rest', rest'']
    simp
  have sub : ∀ c ∈ before ++ (word ++ (after ++ mark :: g.rest)), c ∈ l.scalars :=
    fun c mem => eq ▸ mem
  have bytes := congrArg ofScalars eq
  rw [ofScalars_scalars, ofScalars_append, ofScalars_append, ofScalars_append, ofScalars_cons,
    bytes_of_code (sub mark (by simp)) (a := 61) (by decide) code, ← title, ofScalars_scalars] at bytes
  exact ⟨_, _, _, bytes, blanks_ofScalars (fun c mem => sub c (by simp [mem])) (mem_optSpace.1 codes),
    blanks_ofScalars (fun c mem => sub c (by simp [mem])) (mem_optSpace.1 codes'),
    matches_name (title.symm ▸ mem)⟩

end Bootstrap

end Rulebook

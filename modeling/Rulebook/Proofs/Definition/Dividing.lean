import Rulebook.Proofs.Definition.Accounting
import Rulebook.Proofs.Definition.Meaning

/-!
# The name and the value of a definition

A line is recognised as a definition if and only if it can be divided into a name and a value, and the
parts of its tree are those, because it can be divided in one way only.
-/

namespace Rulebook

open Pattern Bytes

namespace Bootstrap

open Rule

section

variable {l : Bytes} {t : Tree} {e : Entry Rule} {before after : List (Entry Rule)} {offset : Nat}

theorem legal_ruleEntry : Legal ruleEntry := legal_of_modest modest_ruleEntry (by decide)

theorem isFree_definitionMiddle : ∀ e ∈ definitionMiddle, (exprOf e).isFree = true := by
  have blanks : Avoids 10 optSpace := avoids_optSpace (by decide)
  have avoids : ∀ e ∈ definitionMiddle, Avoids 10 e.rule := by
    simpa [definitionMiddle, item] using ⟨blanks, avoids_name (by decide), blanks,
      avoids_ascii "=" (by decide), blanks, avoids_value, blanks, avoids_ascii ";" (by decide), blanks⟩
  intro e mem
  have legal : Legal e.rule := legal_ruleEntry.entry (e := e) (List.mem_cons_of_mem _
    (List.mem_append_left [item lineEnd] mem))
  exact isFree_exprOf e ▸ legal.isFree (avoids e mem)

/-- The part for a named entry of a rule for lines, and what stands before it and after it. -/
theorem part_of_framed (before : List (Entry Rule)) (e : Entry Rule) (after : List (Entry Rule))
    (legal : Legal (seq ((item lineStart :: before) ++ e :: (after ++ [item lineEnd]))))
    (free : ∀ d ∈ before ++ e :: after, (exprOf d).isFree = true)
    (distinct : ((((item lineStart :: before) ++ e :: (after ++ [item lineEnd])).filter Entry.isNamed).map
      Entry.name).Nodup) (isNamed : e.isNamed = true)
    (matched : (seq ((item lineStart :: before) ++ e :: (after ++ [item lineEnd]))).Matches l)
    (built : (seq ((item lineStart :: before) ++ e :: (after ++ [item lineEnd]))).matcher.descend l offset =
      .ok t) :
    ∃ child, t.child? e.name = some child ∧ child.text.scalars ∈ e.rule.expr.language ∧
      ∃ u ∈ (Expr.concat (before.map exprOf)).language, ∃ v ∈ (Expr.concat (after.map exprOf)).language,
        ∃ ending, IsBreak ending ∧ l.scalars = u ++ (child.text.scalars ++ (v ++ ending)) := by
  have free_concat {es : List (Entry Rule)} (sub : ∀ d ∈ es, d ∈ before ++ e :: after) :
      (Expr.concat (es.map exprOf)).isFree = true := by
    rw [Expr.isFree_concat, List.all_map, List.all_eq_true]
    exact fun d mem => free d (sub d mem)
  have own : e.rule.expr.isFree = true := isFree_exprOf e ▸ free e (by simp)
  have legal_e : Legal e.rule := legal.entry (e := e) (by simp)
  obtain ⟨c, found, whole⟩ := legal.sound.wholeNode nofun matched built
  obtain ⟨c', d', inner, first, middle, last, built', child_eq⟩ :=
    Sound.part_of_seq (item lineStart :: before) e (after ++ [item lineEnd]) legal.sound legal.texts
      whole.compiled (legal.sound.searches whole.compiled).whole_names whole.passage whole.node distinct isNamed
  obtain ⟨begin, starts, more⟩ := (Expr.leads_concat_append [exprOf (item lineStart)] (before.map exprOf)).1 first
  obtain ⟨-, rfl⟩ := leads_lineStart.1 ((leads_exprOf ..).1 starts)
  obtain ⟨u, mem_u, rest_u, -⟩ :=
    (Expr.leads_of_free (free_concat fun d mem => List.mem_append_left _ mem)).1 more
  obtain ⟨w, mem_w, rest_w, stop_w⟩ := (Expr.leads_of_free own).1 middle
  rw [List.map_append] at last
  obtain ⟨d, others, ends⟩ := (Expr.leads_concat_append (after.map exprOf) [exprOf (item lineEnd)]).1 last
  obtain ⟨v, mem_v, rest_v, -⟩ := (Expr.leads_of_free (free_concat fun d mem =>
    List.mem_append_right _ (List.mem_cons_of_mem _ mem))).1 others
  obtain ⟨ending, isBreak, ⟨rest, -⟩, -⟩ := leads_lineEnd.1 ((leads_exprOf ..).1 ends)
  have slice := scalars_slice first.mem_onward rest_w stop_w
  have standard := isStandard_of_mem legal_e.sound own (slice ▸ mem_w)
  have inner_eq : (inner.rename e.name).text.scalars = w := by
    rw [Tree.text_rename, (legal_e.sound.text_of_descend standard built').1, slice]
  refine ⟨inner.rename e.name, child_eq, inner_eq ▸ mem_w, u, mem_u, v, mem_v, ending, isBreak, ?_⟩
  rw [inner_eq, show l.scalars = _ from rest_u, rest_w, rest_v, rest, whole.stop, List.append_nil]

end

/-! ### Words of definitions -/

section

variable {w l title value : List Scalar}

theorem mem_entries_append {before after : List (Entry Rule)} :
    w ∈ (Expr.concat ((before ++ after).map exprOf)).language ↔
      ∃ u ∈ (Expr.concat (before.map exprOf)).language, ∃ v ∈ (Expr.concat (after.map exprOf)).language,
        w = u ++ v := by
  rw [List.map_append, (Expr.regroups_concat_append _ _).language_eq]
  exact exists_congr fun u => and_congr_right fun _ => exists_congr fun v => and_congr_right fun _ => eq_comm

theorem mem_named (e : Entry Rule) (after : List (Entry Rule)) :
    w ∈ (Expr.concat ((e :: after).map exprOf)).language ↔
      ∃ u ∈ e.rule.expr.language, ∃ v ∈ (Expr.concat (after.map exprOf)).language, w = u ++ v := by
  rw [← List.singleton_append, mem_entries_append]
  simp only [mem_language_one]

/-- A sign among blanks. -/
def Marked (code : Nat) (w : List Scalar) : Prop :=
  ∃ before mark after, w = before ++ mark :: after ∧ (∀ s ∈ before, IsSpace s) ∧ mark.code = code ∧
    ∀ s ∈ after, IsSpace s

theorem mem_marked {sign : Bytes} (code : Nat) (one : sign.scalars.map Scalar.code = [code]) :
    w ∈ (Expr.concat ([item optSpace, item (text sign), item optSpace].map exprOf)).language ↔
      Marked code w := by
  have signs {w : List Scalar} : w ∈ (text sign).expr.language ↔ ∃ s, w = [s] ∧ s.code = code := by
    rw [mem_text, one, List.map_eq_singleton_iff]
  simp only [mem_named _ (_ :: _), mem_language_one, item, mem_optSpace, signs]
  constructor
  · rintro ⟨before, blanks, _, ⟨_, ⟨mark, rfl, here⟩, after, blanks', rfl⟩, rfl⟩
    exact ⟨before, mark, after, rfl, blanks, here, blanks'⟩
  · rintro ⟨before, mark, after, rfl, blanks, here, blanks'⟩
    exact ⟨before, blanks, _, ⟨_, ⟨mark, rfl, here⟩, after, blanks', rfl⟩, rfl⟩

/-- The entries before the value of a definition. -/
def headEntries : List (Entry Rule) :=
  [item optSpace, ⟨"name", name⟩, item optSpace, item (text "="), item optSpace]

/-- The entries after it. -/
def tailEntries : List (Entry Rule) := [item optSpace, item (text ";"), item optSpace]

/-- What stands before the value of a definition. -/
def Heads (title u : List Scalar) : Prop :=
  ∃ before mark, u = before ++ (title ++ mark) ∧ (∀ s ∈ before, IsSpace s) ∧
    title ∈ name.expr.language ∧ Marked 61 mark

/-- What stands after it. -/
def Tails (v : List Scalar) : Prop := ∃ mark ending, v = mark ++ ending ∧ Marked 59 mark ∧ IsBreak ending

/-- True of a line that is divided into a name and a value. -/
def Divided (l title value : List Scalar) : Prop :=
  ∃ u v, l = u ++ (value ++ v) ∧ Heads title u ∧ value ∈ Bootstrap.value.expr.language ∧ Tails v

theorem mem_headEntries :
    w ∈ (Expr.concat (headEntries.map exprOf)).language ↔ ∃ title, Heads title w := by
  have sign : ("=" : Bytes).scalars.map Scalar.code = [61] := by decide
  simp only [headEntries, mem_named (item optSpace) (_ :: _ :: _ :: _ :: []),
    mem_named ⟨"name", name⟩, mem_marked 61 sign]
  constructor
  · rintro ⟨before, blanks, _, ⟨title, here, mark, marked, rfl⟩, rfl⟩
    exact ⟨title, before, mark, rfl, mem_optSpace.1 blanks, here, marked⟩
  · rintro ⟨title, before, mark, rfl, blanks, here, marked⟩
    exact ⟨before, mem_optSpace.2 blanks, _, ⟨title, here, mark, marked, rfl⟩, rfl⟩

theorem mem_tailEntries : w ∈ (Expr.concat (tailEntries.map exprOf)).language ↔ Marked 59 w :=
  mem_marked 59 (by decide)

theorem definitionMiddle_eq : definitionMiddle = headEntries ++ ⟨"value", Bootstrap.value⟩ :: tailEntries := rfl

/-- A line is recognised as a definition if and only if it can be divided into a name and a value. -/
theorem matches_iff_divided {l : Bytes} :
    ruleEntry.Matches l ↔ ∃ title value, Divided l.scalars title value := by
  rw [framed_ruleEntry.matches_iff modest_ruleEntry.sound (by simp [ruleEntry, seq, kind]) accepted_ruleEntry,
    definitionMiddle_eq]
  simp only [mem_entries_append, mem_named, mem_headEntries, mem_tailEntries]
  constructor
  · rintro ⟨_, ⟨u, ⟨title, heads⟩, _, ⟨value, here, mark, marked, rfl⟩, rfl⟩, ending, isBreak, eq⟩
    exact ⟨title, value, u, mark ++ ending, by simpa using eq, heads, here, mark, ending, rfl, marked, isBreak⟩
  · rintro ⟨title, value, u, _, eq, heads, here, mark, ending, rfl, marked, isBreak⟩
    exact ⟨_, ⟨u, ⟨title, heads⟩, _, ⟨value, here, mark, marked, rfl⟩, rfl⟩, ending, isBreak, by simpa using eq⟩

/-! ### The one way to divide a definition -/

theorem Heads.unique {u u' title' : List Scalar} {rest rest' : List Scalar} (heads : Heads title u)
    (heads' : Heads title' u') (eq : u ++ rest = u' ++ rest') (start : ∀ s ∈ rest.head?, ¬ IsSpace s)
    (start' : ∀ s ∈ rest'.head?, ¬ IsSpace s) : title = title' ∧ rest = rest' := by
  obtain ⟨before, _, rfl, blanks₁, named, b₂, mark, b₃, rfl, blanks₂, code, blanks₃⟩ := heads
  obtain ⟨before', _, rfl, blanks₁', named', b₂', mark', b₃', rfl, blanks₂', code', blanks₃'⟩ := heads'
  have word {title : List Scalar} (mem : title ∈ name.expr.language) : ∀ s ∈ title, s.code ≠ 61 ∧ ¬ IsSpace s := by
    intro s here
    have code := isWordCode_of_mem mem s here
    simp only [isWordCode, Bool.or_eq_true, Bool.and_eq_true, decide_eq_true_eq, beq_iff_eq] at code
    exact ⟨by omega, by rintro (blank | blank) <;> omega⟩
  have off {before title after : List Scalar} (first : ∀ s ∈ before, IsSpace s) (mem : title ∈ name.expr.language)
      (last : ∀ s ∈ after, IsSpace s) : ∀ s ∈ before ++ (title ++ after), ¬ s.code = 61 := by
    have blank {w : List Scalar} (all : ∀ s ∈ w, IsSpace s) : ∀ s ∈ w, ¬ s.code = 61 := by
      intro s here
      obtain code | code := all s here <;> omega
    simpa [or_imp, forall_and] using ⟨blank first, fun s here => (word mem s here).1, blank last⟩
  -- The equals sign is the first, and the name ends where the blanks before it begin.
  have parted : before ++ (title ++ b₂) ++ mark :: (b₃ ++ rest) =
      before' ++ (title' ++ b₂') ++ mark' :: (b₃' ++ rest') := by
    simpa using eq
  obtain ⟨front, -, back⟩ := append_cons_inj (p := fun s : Scalar => s.code = 61) parted
    (off blanks₁ named blanks₂) (off blanks₁' named' blanks₂') code code'
  have first {title more : List Scalar} (mem : title ∈ name.expr.language) :
      ∀ s ∈ (title ++ more).head?, ¬ IsSpace s := by
    obtain ⟨s, others, rfl, -⟩ := mem_name mem
    rintro _ ⟨⟩
    exact (word mem s (List.mem_cons_self ..)).2
  have head {w : List Scalar} (all : ∀ s ∈ w, IsSpace s) : ∀ s ∈ w.head?, ¬ ¬ IsSpace s :=
    fun s here => not_not_intro (all s (List.mem_of_mem_head? here))
  obtain ⟨-, names⟩ := cut_unique_front front blanks₁ (first named) blanks₁' (first named')
  exact ⟨(cut_unique_front names (fun s here => (word named s here).2) (head blanks₂)
    (fun s here => (word named' s here).2) (head blanks₂')).1,
    (cut_unique_front back blanks₃ start blanks₃' start').2⟩

theorem Tails.trailing {v : List Scalar} (tails : Tails v) : ∀ s ∈ v, s.code ∈ Bootstrap.trailing := by
  obtain ⟨_, ending, rfl, ⟨before, mark, after, rfl, blanks, code, blanks'⟩, isBreak⟩ := tails
  have blank {w : List Scalar} (all : ∀ s ∈ w, IsSpace s) : ∀ s ∈ w, s.code ∈ Bootstrap.trailing := by
    intro s here
    obtain code | code := all s here <;> simp [Bootstrap.trailing, code]
  have ends : ∀ s ∈ ending, s.code ∈ Bootstrap.trailing := by
    intro s here
    have known : s.code ∈ ending.map Scalar.code := List.mem_map_of_mem here
    simp only [IsBreak, List.mem_cons, List.not_mem_nil, or_false] at isBreak
    obtain eq | eq | eq := isBreak <;> rw [eq] at known <;> simp at known
    · obtain code | code := known <;> simp [Bootstrap.trailing, code]
    · simp [Bootstrap.trailing, known]
  have marks : mark.code ∈ Bootstrap.trailing := by simp [Bootstrap.trailing, code]
  simpa [or_imp, forall_and] using ⟨blank blanks, marks, blank blanks', ends⟩

theorem legal_value : Legal Bootstrap.value := legal_of_modest modest_value (by decide)

/-- A line can be divided in one way only. -/
theorem Divided.unique {title' value' : List Scalar} (h : Divided l title value) (h' : Divided l title' value') :
    title = title' ∧ value = value' := by
  obtain ⟨u, v, rfl, heads, here, tails⟩ := h
  obtain ⟨u', v', eq, heads', here', tails'⟩ := h'
  have same : (leaf token).expr.language = token.expr.language := language_leaf modest_token (by decide)
  have apart : Apart (leaf token) := fun w mem => apart_token w (same ▸ mem)
  have ends : EndsOff Bootstrap.trailing Bootstrap.value :=
    endsOff_listOf legal_value apart fun w mem => endsOff_token w (same ▸ mem)
  have start {value v : List Scalar} (mem : value ∈ Bootstrap.value.expr.language) :
      ∀ s ∈ (value ++ v).head?, ¬ IsSpace s := by
    obtain ⟨s, more, rfl, other⟩ := apart_seq legal_value apart value mem
    rintro _ ⟨⟩
    exact not_isSpace_of_stops other
  obtain ⟨titles, rest⟩ := heads.unique heads' eq (start here) (start here')
  exact ⟨titles, (cut_unique (p := fun s => s.code ∈ Bootstrap.trailing) rest (ends _ here) tails.trailing
    (ends _ here') tails'.trailing).1⟩

/-- The parts of a definition are what it is divided into. -/
theorem parts_of_divided {l : Bytes} {offset : Nat} {t : Tree} (divided : Divided l.scalars title value)
    (built : ruleEntry.matcher.descend l offset = .ok t) :
    ∃ n v, t.child? "name" = some n ∧ t.child? "value" = some v ∧ n.text.scalars = title ∧
      v.text.scalars = value := by
  have matched := matches_iff_divided.2 ⟨title, value, divided⟩
  obtain ⟨n, name_, own, u, mem_u, v, mem_v, ending, isBreak, eq⟩ :=
    part_of_framed [item optSpace] ⟨"name", name⟩
      ([item optSpace, item (text "="), item optSpace] ++ ⟨"value", Bootstrap.value⟩ :: tailEntries)
      legal_ruleEntry isFree_definitionMiddle (by decide) (by decide) matched built
  obtain ⟨v', value_, own', u', mem_u', w', mem_w', ending', isBreak', eq'⟩ :=
    part_of_framed headEntries ⟨"value", Bootstrap.value⟩ tailEntries
      legal_ruleEntry isFree_definitionMiddle (by decide) (by decide) matched built
  refine ⟨n, v', name_, value_, ?_, ?_⟩
  · obtain ⟨mark, marked, _, others, rfl⟩ := mem_entries_append.1 mem_v
    obtain ⟨value', here, mark', marked', rfl⟩ := (mem_named _ _).1 others
    have divided' : Divided l.scalars n.text.scalars value' := by
      refine ⟨u ++ (n.text.scalars ++ mark), mark' ++ ending, by simpa using eq,
        ⟨u, mark, rfl, mem_optSpace.1 (mem_language_one.1 mem_u), own, ?_⟩, here, mark', ending, rfl,
        mem_tailEntries.1 marked', isBreak⟩
      exact (mem_marked 61 (by decide)).1 marked
    exact (divided'.unique divided).1
  · obtain ⟨title', heads⟩ := mem_headEntries.1 mem_u'
    have divided' : Divided l.scalars title' v'.text.scalars :=
      ⟨u', w' ++ ending', eq', heads, own', w', ending', rfl, mem_tailEntries.1 mem_w', isBreak'⟩
    exact (divided'.unique divided).2

end

end Bootstrap

end Rulebook

import Rulebook.Proofs.Registry
import Rulebook.Proofs.Rule.Literal
import Rulebook.Proofs.Text.Quoted
import Rulebook.Proofs.Text.Words
import Rulebook.Proofs.Tree.Faithful
import Rulebook.Proofs.Tree.Writing

/-!
# Trees told apart in print

The trees that are printed can be read off what is printed, if their names are those of rules
(`Rule.print_determines`). Each line tells where it ends and which node it is for
(`Tree.line_unique`), and the depths of the nodes in order tell where each tree ends
(`Tree.rowsOf_unique`).
-/

namespace Rulebook

namespace Tree

/-! ### Lines -/

/-- How a name is shown. -/
def label (name : Bytes) : Bytes := if name.isEmpty then "<match>" else name

/-- True of a node whose name is that of an entry, or empty. -/
def Row.Named (row : Row) : Prop := row.name = [] ∨ isValidName row.name = true

/-- A name is shown as it is, and starts with a byte of a word. -/
theorem label_valid {name : Bytes} (valid : isValidName name = true) :
    label name = name ∧ (∀ b ∈ name, Bytes.isWord b = true) ∧ ∃ b rest, name = b :: rest := by
  rw [isValidName, Bool.and_eq_true, List.all_eq_true] at valid
  cases name with
  | nil => exact absurd valid.1 (by decide)
  | cons b rest => exact ⟨rfl, valid.2, b, rest, rfl⟩

/-- No name starts with a blank when it is shown. -/
theorem label_head {row : Row} (named : row.Named) (u : Bytes) :
    (label row.name ++ u).head? ≠ some 32 := by
  rcases named with empty | valid
  · rw [empty]
    exact nofun
  · rcases label_valid valid with ⟨shown, word, b, rest, eq⟩
    rw [shown, eq]
    intro blank
    have letter := word b (by rw [eq]; exact List.mem_cons_self ..)
    rw [Option.some.inj blank] at letter
    cases letter

/-- A name as it is shown, up to the sign before the offset, is told from every other. -/
theorem label_unique {p q : Row} (hp : p.Named) (hq : q.Named) {u v : Bytes}
    (same : label p.name ++ 64 :: u = label q.name ++ 64 :: v) : p.name = q.name ∧ u = v := by
  -- the brackets around the name of a match are in no name
  have bracket {row : Row} (valid : isValidName row.name = true) {u v : Bytes} :
      ¬ label row.name ++ 64 :: u = 60 :: v := by
    rcases label_valid valid with ⟨shown, word, b, rest, eq⟩
    rw [shown, eq]
    intro same
    have letter := word b (by rw [eq]; exact List.mem_cons_self ..)
    rw [(List.cons.inj same).1] at letter
    cases letter
  rcases hp with empty | valid <;> rcases hq with empty' | valid'
  · rw [empty, empty'] at same ⊢
    exact ⟨rfl, (List.cons.inj (List.append_cancel_left same)).2⟩
  · rw [empty] at same
    exact absurd same.symm (bracket valid')
  · rw [empty'] at same
    exact absurd same (bracket valid)
  · have shown := label_valid valid
    have shown' := label_valid valid'
    rw [shown.1, shown'.1] at same
    rcases Bytes.word_unique shown.2.1 shown'.2.1 (by decide) (by decide) same with ⟨names, -, rest⟩
    exact ⟨names, rest⟩

/-- How deep a line is indented is told by the blanks before the first byte that is none. -/
theorem indent_unique {d e : Nat} {x y : Bytes} (hx : x.head? ≠ some 32) (hy : y.head? ≠ some 32)
    (same : Bytes.times d "  " ++ x = Bytes.times e "  " ++ y) : d = e ∧ x = y := by
  have deeper (n : Nat) (w : Bytes) :
      Bytes.times (n + 1) "  " ++ w = 32 :: 32 :: (Bytes.times n "  " ++ w) := rfl
  induction d generalizing e with
  | zero =>
    cases e with
    | zero => exact ⟨rfl, same⟩
    | succ e =>
      rw [deeper] at same
      exact absurd (congrArg List.head? same) hx
  | succ d ih =>
    rw [deeper] at same
    cases e with
    | zero => exact absurd (congrArg List.head? same.symm) hy
    | succ e =>
      rw [deeper] at same
      rcases ih (List.cons.inj (List.cons.inj same).2).2 with ⟨rfl, rest⟩
      exact ⟨rfl, rest⟩

theorem Row.line_append (row : Row) (u : Bytes) :
    row.line ++ u = Bytes.times row.depth "  " ++
      (label row.name ++ 64 :: (Bytes.integer row.offset ++ 32 :: (row.text.quote ++ 10 :: u))) := by
  simp only [Row.line, Tree.line, List.append_assoc]
  rfl

/-- Of two lines at the start of one text, both are for the same node. -/
theorem line_unique {p q : Row} (hp : p.Named) (hq : q.Named) {u v : Bytes}
    (same : p.line ++ u = q.line ++ v) : p = q ∧ u = v := by
  rw [Row.line_append, Row.line_append] at same
  rcases indent_unique (label_head hp _) (label_head hq _) same with ⟨depths, rest⟩
  rcases label_unique hp hq rest with ⟨names, rest⟩
  rcases Bytes.integer_unique rest with ⟨offsets, rest⟩
  rcases Bytes.quote_unique rest with ⟨texts, rest⟩
  refine ⟨?_, (List.cons.inj rest).2⟩
  cases p
  cases q
  rw [Row.mk.injEq]
  exact ⟨depths, names, texts, offsets⟩

/-- Nodes whose lines make up one text are the same nodes. -/
theorem lines_unique {ps qs : List Row} (hp : ∀ p ∈ ps, p.Named) (hq : ∀ q ∈ qs, q.Named)
    (same : ps.flatMap Row.line = qs.flatMap Row.line) : ps = qs := by
  have some_byte {row : Row} {u : Bytes} : ¬ row.line ++ u = [] := by
    intro none
    rw [Row.line_append] at none
    simp at none
  induction ps generalizing qs with
  | nil =>
    cases qs with
    | nil => rfl
    | cons q qs => exact absurd same.symm some_byte
  | cons p ps ih =>
    cases qs with
    | nil => exact absurd same some_byte
    | cons q qs =>
      rcases List.forall_mem_cons.1 hp with ⟨hp, others⟩
      rcases List.forall_mem_cons.1 hq with ⟨hq, others'⟩
      rcases line_unique hp hq same with ⟨rfl, rest⟩
      rw [ih others others' rest]

/-! ### Depths -/

/-- True of nodes in order, the first of which lies less deep than some depth, if there is one. -/
def Leaves (depth : Nat) (rows : List Row) : Prop := ∀ row ∈ rows.head?, row.depth < depth

/-- What comes after a tree leaves it: the next tree lies as deep, and what comes after all of them
    less deep. -/
theorem leaves_rowsOf {depth : Nat} (ts : List Tree) {us : List Row} (after : Leaves depth us) :
    Leaves (depth + 1) (rowsOf depth ts ++ us) := by
  intro row first
  cases ts with
  | nil => exact Nat.lt_succ_of_lt (after row first)
  | cons t ts =>
    rcases t with ⟨name, text, offset, children⟩
    cases first
    exact Nat.lt_succ_self depth

/-- Where there is no tree there is no node of that depth. -/
theorem not_leaves_cons {depth : Nat} {t : Tree} {ts : List Tree} {us : List Row} :
    ¬ Leaves depth (rowsOf depth (t :: ts) ++ us) := by
  rcases t with ⟨name, text, offset, children⟩
  intro after
  exact Nat.lt_irrefl depth (after ⟨depth, name, text, offset⟩ rfl)

mutual

/-- Of two trees at the start of one list of nodes, up to a node that leaves them, both are the
    same. -/
theorem rows_unique : ∀ {s t : Tree} {depth : Nat} {us vs : List Row}, Leaves (depth + 1) us →
    Leaves (depth + 1) vs → s.rows depth ++ us = t.rows depth ++ vs → s = t ∧ us = vs
  | node n x i ss, node m y j ts, depth, us, vs, hu, hv, same => by
    rw [rows, rows, List.cons_append, List.cons_append, List.cons.injEq, Row.mk.injEq] at same
    rcases same with ⟨⟨-, rfl, rfl, rfl⟩, below⟩
    rcases rowsOf_unique hu hv below with ⟨rfl, rest⟩
    exact ⟨rfl, rest⟩

/-- Of trees one after another at the start of one list of nodes, up to a node that leaves them,
    there are as many, and they are the same. -/
theorem rowsOf_unique : ∀ {ss ts : List Tree} {depth : Nat} {us vs : List Row}, Leaves depth us →
    Leaves depth vs → rowsOf depth ss ++ us = rowsOf depth ts ++ vs → ss = ts ∧ us = vs
  | [], [], _, _, _, _, _, same => ⟨rfl, same⟩
  | [], t :: ts, depth, us, vs, hu, _, same => by
    rw [rowsOf, List.nil_append] at same
    rw [same] at hu
    exact absurd hu not_leaves_cons
  | s :: ss, [], depth, us, vs, _, hv, same => by
    rw [rowsOf.eq_1, List.nil_append] at same
    rw [← same] at hv
    exact absurd hv not_leaves_cons
  | s :: ss, t :: ts, depth, us, vs, hu, hv, same => by
    rw [rowsOf, rowsOf, List.append_assoc, List.append_assoc] at same
    rcases rows_unique (leaves_rowsOf ss hu) (leaves_rowsOf ts hv) same with ⟨rfl, others⟩
    rcases rowsOf_unique hu hv others with ⟨rfl, rest⟩
    exact ⟨rfl, rest⟩

end

/-- Trees with names of entries that are printed alike are the same trees. -/
theorem print_inj {ss ts : List Tree} (hs : ∀ row ∈ rowsOf 0 ss, row.Named)
    (ht : ∀ row ∈ rowsOf 0 ts, row.Named) (same : ss.flatMap print = ts.flatMap print) :
    ss = ts := by
  have lines (ts : List Tree) : ts.flatMap print = (rowsOf 0 ts).flatMap Row.line := by
    induction ts with
    | nil => rfl
    | cons t ts ih =>
      rw [List.flatMap_cons, ih, rowsOf, List.flatMap_append, print, lines_eq]
      rfl
  rw [lines, lines] at same
  have nodes : rowsOf 0 ss ++ [] = rowsOf 0 ts ++ [] := by rw [lines_unique hs ht same]
  have after : Leaves 0 [] := nofun
  exact (rowsOf_unique after after nodes).1

end Tree

/-! ### Trees of rules -/

namespace Rule

open Rulebook.Tree

theorem Built.entries {r : Rule} (built : r.Built) :
    ∀ e ∈ r.entries, e.rule.Built ∧ (e.name = [] ∨ isValidName e.name = true) := by
  cases r with
  | regex => exact fun e mem => absurd mem List.not_mem_nil
  | text => exact fun e mem => absurd mem List.not_mem_nil
  | combine tag how entries => exact (built_combine_iff.1 built).2

mutual

/-- Below a node of a rule every node has the name of an entry. -/
theorem named_rows {text : Bytes} : ∀ {t : Tree} {r : Rule} {depth : Nat}, r.Built →
    t.Faithful text r → (t.name = [] ∨ isValidName t.name = true) → ∀ row ∈ t.rows depth, row.Named
  | node name span offset children, r, depth, built, faithful, named => by
    rw [Faithful] at faithful
    rw [rows]
    exact List.forall_mem_cons.2 ⟨named, named_rowsOf built.entries faithful.2.2.2⟩

theorem named_rowsOf {text : Bytes} : ∀ {ts : List Tree} {entries : List (Entry Rule)}
    {depth : Nat}, (∀ e ∈ entries, e.rule.Built ∧ (e.name = [] ∨ isValidName e.name = true)) →
    FaithfulAll text entries ts → ∀ row ∈ rowsOf depth ts, row.Named
  | [], _, _, _, _ => nofun
  | t :: ts, entries, depth, each, faithful => by
    rw [FaithfulAll] at faithful
    rcases faithful with ⟨⟨e, mem, -, name, here⟩, others⟩
    rcases each e mem with ⟨built, valid⟩
    rw [rowsOf]
    intro row mem
    rcases List.mem_append.1 mem with first | later
    · exact named_rows built here (name ▸ valid) row first
    · exact named_rowsOf each others row later

end

/-- The trees of a text have names of entries, below their roots. -/
theorem named_nodes {r : Rule} (built : r.Built) (text : Bytes) :
    ∀ row ∈ rowsOf 0 (r.nodes text), row.Named := by
  have roots : ∀ t ∈ r.nodes text, t.name = [] ∧ t.Faithful text r := by
    intro t mem
    rcases nodeOf_of_mem mem with ⟨c, found, -, -, node⟩
    exact ⟨node.name_eq, faithful_of_mem mem⟩
  generalize r.nodes text = ts at roots
  induction ts with
  | nil => exact nofun
  | cons t ts ih =>
    rcases List.forall_mem_cons.1 roots with ⟨⟨root, faithful⟩, others⟩
    rw [rowsOf]
    intro row mem
    rcases List.mem_append.1 mem with first | later
    · exact named_rows built faithful (.inl root) row first
    · exact ih others row later

/-- Trees that are printed alike are the same, whatever rules and texts they are of. -/
theorem print_determines {r s : Rule} (hr : r.Built) (hs : s.Built) {x y : Bytes}
    {ss ts : List Tree} (first : r.parse x = .ok ss) (second : s.parse y = .ok ts)
    (same : ss.flatMap print = ts.flatMap print) : ss = ts := by
  have names := named_nodes hr x
  have names' := named_nodes hs y
  rw [nodes_of_parse first] at names
  rw [nodes_of_parse second] at names'
  exact print_inj names names' same

namespace Sample

/-- A line and the start of another, as two texts. -/
def twoLines : Rule := textSeq 0 [(1, "a@0 b\n"), (2, "  a@0")]

/-- The same as one text. -/
def oneText : Rule := textSeq 3 [(4, "a@0 b\n  a@0")]

theorem built_twoLines : twoLines.Built :=
  built_combine_iff.2 ⟨by decide, by simp [textEntries, Rule.Built.text]⟩

theorem built_oneText : oneText.Built :=
  built_combine_iff.2 ⟨by decide, by simp [textEntries, Rule.Built.text]⟩

end Sample

/-- Two rules find what looks like lines of a tree, one in a text that is just that and the other in a
    longer one. -/
theorem print_determines_lines :
    Sample.twoLines.Built ∧ Sample.oneText.Built ∧
      ∃ ss ts, Sample.twoLines.parse "a@0 b\n  a@0" = .ok ss ∧
        Sample.oneText.parse "a@0 b\n  a@0\n" = .ok ts ∧
        ss.flatMap print = "<match>@0 \"a@0 b\\n  a@0\"\n" ∧
        ts.flatMap print = "<match>@0 \"a@0 b\\n  a@0\"\n" ∧ ss = ts := by
  have first : Sample.twoLines.parse "a@0 b\n  a@0" = .ok [node [] "a@0 b\n  a@0" 0 []] := by
    have accepted : Accepted Sample.twoLines :=
      accepted_of_isOk _ (by decide +kernel) (by decide +kernel)
    rw [Sample.twoLines, (ready_textSeq accepted).parse_anonymous fun _ => isNamed_textEntries,
      spans_textSeq (by decide) accepted (by decide)]
    rfl
  have second : Sample.oneText.parse "a@0 b\n  a@0\n" = .ok [node [] "a@0 b\n  a@0" 0 []] := by
    have accepted : Accepted Sample.oneText :=
      accepted_of_isOk _ (by decide +kernel) (by decide +kernel)
    rw [Sample.oneText, (ready_textSeq accepted).parse_anonymous fun _ => isNamed_textEntries,
      spans_textSeq (by decide) accepted (by decide)]
    rfl
  have printed : [node [] "a@0 b\n  a@0" 0 []].flatMap print = "<match>@0 \"a@0 b\\n  a@0\"\n" := by
    decide +kernel
  exact ⟨Sample.built_twoLines, Sample.built_oneText, _, _, first, second, printed, printed,
    print_determines Sample.built_twoLines Sample.built_oneText first second rfl⟩

end Rule

end Rulebook

import Rulebook.Proofs.Rule.Captures
import Rulebook.Proofs.Rule.Occurrence

/-!
# Rules as leaves of other rules

A rule that stands as a leaf in another one is found where it would be found as it is, although the
pattern of a leaf is put between parentheses and has no names, and copies of it never clash
(`Rule.asLeaf_in_context`). Whether the leaf would be accepted by itself is left open: its pattern may
be too large. The two patterns are read to expressions that differ in names and in how concatenations
are put together (`Rule.Hides.regroups`), and neither shows in a program.
-/

namespace Rulebook

open Pattern
open Token (scan Clean paren)

namespace Pattern.Expr

/-! ### Names and programs -/

theorem Regroups.nameless {a b : Expr} (h : Regroups a b) : Regroups a.nameless b.nameless := by
  induction h with
  | refl => exact .refl _
  | symm _ ih => exact ih.symm
  | trans _ _ ih ih' => exact ih.trans ih'
  | assoc => exact .assoc _ _ _
  | empty_cat => exact .empty_cat _
  | cat_empty => exact .cat_empty _
  | group _ ih => exact ih.group
  | cat _ _ ih ih' => exact ih.cat ih'
  | alt _ _ ih ih' => exact ih.alt ih'
  | star _ ih => exact ih.star
  | plus _ ih => exact ih.plus
  | opt _ ih => exact ih.opt
  | times _ ih => exact ih.times

/-- The names of groups do not show in a program. -/
theorem build_nameless (e : Expr) : e.nameless.build = e.build := by
  induction e with
  | empty | one | test => rfl
  | group _ _ _ ih => simp only [nameless, build, ih]
  | cat _ _ ih ih' => simp only [nameless, build, ih, ih']
  | alt _ _ ih ih' => simp only [nameless, build, ih, ih']
  | star _ e ih => simp only [nameless, build, ih, nullable_nameless]
  | plus _ _ ih => simp only [nameless, build, ih]
  | opt _ _ ih => simp only [nameless, build, ih]
  | times _ _ _ e ih => simp only [nameless, build, ih, nullable_nameless]

theorem numberFrom_nameless (e : Expr) (next : Nat) :
    e.nameless.numberFrom next = ((e.numberFrom next).1.nameless, (e.numberFrom next).2) := by
  induction e generalizing next with
  | empty | one | test => rfl
  | group _ _ _ ih => simp only [nameless, numberFrom, ih]
  | cat _ _ ih ih' => simp only [nameless, numberFrom, ih, ih']
  | alt _ _ ih ih' => simp only [nameless, numberFrom, ih, ih']
  | star _ _ ih => simp only [nameless, numberFrom, ih]
  | plus _ _ ih => simp only [nameless, numberFrom, ih]
  | opt _ _ ih => simp only [nameless, numberFrom, ih]
  | times _ _ _ _ ih => simp only [nameless, numberFrom, ih]

/-- Expressions that differ in names and in how concatenations are put together have the same
    program. -/
theorem program_eq_of_nameless {a b : Expr} (same : Regroups a.nameless b.nameless) :
    Program.ofExpr a.numbered = Program.ofExpr b.numbered := by
  have numbered := same.numbered.build_eq
  simp only [Expr.numbered, numberFrom_nameless, build_nameless] at numbered
  simp only [Program.ofExpr, Expr.numbered, numbered]

end Pattern.Expr

namespace Rule

/-! ### Entries that stand side by side -/

/-- The entries as a sequence shows them, up to the place after some of them. -/
theorem exists_fuse_append (pending : Bytes) (before : List (Entry Rule)) :
    ∃ front, ∀ rest, fuse pending (before ++ rest) = front ++ fuse (chunk pending before) rest := by
  induction before generalizing pending with
  | nil => exact ⟨[], fun _ => rfl⟩
  | cons e before ih =>
    obtain ⟨name, r⟩ := e
    cases found : literal? name r with
    | some literal =>
      obtain ⟨front, same⟩ := ih (pending ++ literal)
      refine ⟨front, fun rest => ?_⟩
      simp only [List.cons_append, fuse, chunk, found, same]
    | none =>
      obtain ⟨front, same⟩ := ih []
      refine ⟨⟨[], text 0 pending⟩ :: ⟨name, r⟩ :: front, fun rest => ?_⟩
      simp only [List.cons_append, fuse, chunk, found, same]

/-- A text that is UTF-8 shares no character with what follows it. -/
theorem regroups_fuse_append {p : Bytes} (valid : p.isUtf8 = true) (q : Bytes)
    (rest : List (Entry Rule)) :
    Expr.Regroups (.concat ((fuse (p ++ q) rest).map exprOf))
      (.cat (textExpr p) (.concat ((fuse q rest).map exprOf))) := by
  induction rest generalizing q with
  | nil => exact regroups_textExpr_append valid q
  | cons e rest ih =>
    obtain ⟨name, r⟩ := e
    cases found : literal? name r with
    | some literal =>
      simp only [fuse, found, List.append_assoc]
      exact ih (q ++ literal)
    | none =>
      simp only [fuse, found, List.map_cons]
      refine (Expr.regroups_concat_cons _ _).trans ?_
      refine ((regroups_textExpr_append valid q).cat (.refl _)).trans ?_
      refine (Expr.Regroups.assoc _ _ _).trans ((Expr.Regroups.refl _).cat ?_)
      exact (Expr.regroups_concat_cons _ _).symm

/-- An entry that shares no character with its neighbours is a part by itself. -/
theorem regroups_fuse_entry {pending : Bytes} {before : List (Entry Rule)} {e : Entry Rule}
    (apart : literal? e.name e.rule = none ∨ (chunk pending before).isUtf8 = true ∧
      ∀ literal, literal? e.name e.rule = some literal → literal.isUtf8 = true)
    {front : List (Entry Rule)}
    (cut : ∀ rest, fuse pending (before ++ rest) = front ++ fuse (chunk pending before) rest)
    (after : List (Entry Rule)) :
    Expr.Regroups (.concat ((fuse pending (before ++ e :: after)).map exprOf))
      (.concat ((front ++ ⟨[], text 0 (chunk pending before)⟩ :: e :: fuse [] after).map exprOf)) := by
  rw [cut, List.map_append, List.map_append]
  refine (Expr.regroups_concat_append _ _).trans
    (.trans ((Expr.Regroups.refl _).cat ?_) (Expr.regroups_concat_append _ _).symm)
  obtain ⟨name, r⟩ := e
  cases found : literal? name r with
  | none =>
    simp only [fuse, found]
    exact .refl _
  | some literal =>
    obtain ⟨here, utf8⟩ := apart.resolve_left (by simp [found])
    obtain ⟨rfl, tag, rfl⟩ := eq_text_of_literal? found
    have within := regroups_fuse_append (utf8 literal found) [] after
    rw [List.append_nil] at within
    simp only [fuse, found]
    refine (regroups_fuse_append here literal after).trans ?_
    refine .trans ((Expr.Regroups.refl _).cat ?_) (Expr.regroups_concat_cons _ _).symm
    exact within.trans (Expr.regroups_concat_cons _ _).symm

theorem nameless_joins (how : Combinator) (es : List Expr) :
    (how.joins es).nameless = how.joins (es.map Expr.nameless) := by
  unfold Combinator.joins
  split
  · exact Expr.nameless_choice es
  · exact Expr.nameless_concat es

theorem nameless_repeats (how : Combinator) (e : Expr) :
    (how.repeats e).nameless = how.repeats e.nameless := by
  cases how <;> rfl

/-- Entries that differ in one place, where they are the same up to names. -/
theorem regroups_at (how : Combinator) (front back : List (Entry Rule)) {e e' : Entry Rule}
    (same : Expr.Regroups (exprOf e).nameless (exprOf e').nameless) :
    Expr.Regroups (how.joins ((front ++ e :: back).map exprOf)).nameless
      (how.joins ((front ++ e' :: back).map exprOf)).nameless := by
  rw [nameless_joins, nameless_joins]
  refine .joins ?_ how
  simp only [List.map_append, List.map_cons]
  refine List.rel_append ?_ (.cons same ?_)
  · exact List.forall₂_same.2 fun e _ => .refl e
  · exact List.forall₂_same.2 fun e _ => .refl e

theorem regroups_entries (how : Combinator) (before after : List (Entry Rule)) {e e' : Entry Rule}
    (apart : how ≠ .oneOf → literal? e.name e.rule = none ∨ (chunk [] before).isUtf8 = true ∧
      ∀ literal, literal? e.name e.rule = some literal → literal.isUtf8 = true)
    (alone : literal? e'.name e'.rule = none)
    (same : Expr.Regroups (exprOf e).nameless (exprOf e').nameless) :
    Expr.Regroups (how.joins ((shown how (before ++ e :: after)).map exprOf)).nameless
      (how.joins ((shown how (before ++ e' :: after)).map exprOf)).nameless := by
  by_cases choice : how = .oneOf
  · simp only [shown, if_pos choice]
    exact regroups_at how before after same
  · obtain ⟨front, cut⟩ := exists_fuse_append [] before
    have first := (regroups_fuse_entry (apart choice) cut after).nameless
    have second := (regroups_fuse_entry (.inl alone) cut after).nameless
    have between := regroups_at .seq (front ++ [⟨[], text 0 (chunk [] before)⟩]) (fuse [] after) same
    simp only [List.append_assoc, List.singleton_append] at between
    simp only [shown, Combinator.joins, if_neg choice]
    exact (first.trans between).trans second.symm

/-! ### One entry as a leaf -/

/-- True of a rule and the same rule with one entry's rule `r`, at any depth, as a leaf. -/
inductive Hides (r : Rule) : Rule → Rule → Prop where
  | here {tag : Nat} {how : Combinator} {before after : List (Entry Rule)} {name : Bytes}
      (tag' : Nat) :
      Hides r (combine tag how (before ++ ⟨name, r⟩ :: after))
        (combine tag how (before ++ ⟨name, r.asLeaf tag'⟩ :: after))
  | deeper {tag : Nat} {how : Combinator} {before after : List (Entry Rule)} {name : Bytes}
      {c c' : Rule} (hides : Hides r c c') :
      Hides r (combine tag how (before ++ ⟨name, c⟩ :: after))
        (combine tag how (before ++ ⟨name, c'⟩ :: after))

section

variable {r c c' : Rule} (hides : Hides r c c')

include hides

theorem Hides.combined (name : Bytes) : literal? name c = none ∧ literal? name c' = none := by
  cases hides with
  | here | deeper => exact ⟨rfl, rfl⟩

theorem Hides.kind_ne : c.kind ≠ .regex ∧ c'.kind ≠ .regex := by
  cases hides with
  | here | deeper => exact ⟨nofun, nofun⟩

theorem Hides.sound (sound : Sound c) : Sound r := by
  induction hides with
  | @here _ _ _ _ name => exact sound.entry (e := ⟨name, r⟩) (mem_reach List.mem_append_cons_self)
  | @deeper _ _ _ _ name c _ _ ih =>
    exact ih (sound.entry (e := ⟨name, c⟩) (mem_reach List.mem_append_cons_self))

end

theorem firm_combine (tag : Nat) (how : Combinator) {entries : List (Entry Rule)}
    (each : ∀ e ∈ entries, (e.name = [] ∨ isValidName e.name = true) ∧ Firm e.rule) :
    Firm (combine tag how entries) where
  names e mem := by
    obtain ⟨d, mem, rfl | below⟩ := mem_reach_iff.1 mem
    · exact (each e mem).1
    · exact (each d mem).2.names e below
  leaves := forall_below (fun r => ∀ tag source, r = regex tag source → Trusted source) nofun
    fun e mem => (each e mem).2.leaves

/-- The pattern of a rule whose leaves are accepted, as a leaf. -/
theorem Sound.firm_asLeaf {r : Rule} (sound : Sound r) (tag : Nat) : Firm (r.asLeaf tag) where
  names := nofun
  leaves e mem tag source eq := by
    cases List.mem_singleton.1 mem
    cases eq
    exact sound.trusted

/-- With a leaf in place of an entry's rule, all leaves can be trusted. -/
theorem Hides.firm {r c c' : Rule} (hides : Hides r c c') (sound : Sound c) : Firm c' := by
  have replaced {tag : Nat} {how : Combinator} {before after : List (Entry Rule)} {name : Bytes}
      {r r' : Rule} (sound : Sound (combine tag how (before ++ ⟨name, r⟩ :: after)))
      (firm : Sound r → Firm r') : Firm (combine tag how (before ++ ⟨name, r'⟩ :: after)) := by
    refine firm_combine tag how fun e mem => ?_
    have each (d : Entry Rule) (mem : d ∈ before ++ ⟨name, r⟩ :: after) :
        (d.name = [] ∨ isValidName d.name = true) ∧ Sound d.rule :=
      ⟨sound.names d (mem_reach mem), sound.entry (mem_reach mem)⟩
    have here := each ⟨name, r⟩ (by simp)
    rcases List.mem_append.1 mem with mem | mem
    · exact (each e (List.mem_append_left _ mem)).imp_right Sound.firm
    · rcases List.mem_cons.1 mem with rfl | mem
      · exact ⟨here.1, firm here.2⟩
      · exact (each e (List.mem_append_right _ (List.mem_cons_of_mem _ mem))).imp_right Sound.firm
  induction hides with
  | here tag' => exact replaced sound fun sound => sound.firm_asLeaf tag'
  | deeper _ ih => exact replaced sound ih

/-! ### Expressions with a leaf in place of a rule -/

theorem regroups_exprOf (name : Bytes) {r r' : Rule}
    (same : Expr.Regroups r.expr.nameless r'.expr.nameless) :
    Expr.Regroups (exprOf ⟨name, r⟩).nameless (exprOf ⟨name, r'⟩).nameless := by
  unfold exprOf entryExpr
  split
  · exact same
  · exact same.group

/-- Combinations that differ in the rule of one entry, where they are read to the same up to
    names. -/
theorem regroups_combine {tag : Nat} {how : Combinator} {before after : List (Entry Rule)}
    {name : Bytes} {r r' : Rule}
    (even : ∀ e ∈ reach (before ++ ⟨name, r⟩ :: after), Even e.rule)
    (even' : ∀ e ∈ reach (before ++ ⟨name, r'⟩ :: after), Even e.rule)
    (read : IsRead (combine tag how (before ++ ⟨name, r⟩ :: after)))
    (read' : IsRead (combine tag how (before ++ ⟨name, r'⟩ :: after)))
    (apart : how ≠ .oneOf → literal? name r = none ∨ (chunk [] before).isUtf8 = true ∧
      ∀ literal, literal? name r = some literal → literal.isUtf8 = true)
    (alone : literal? name r' = none) (same : Expr.Regroups r.expr.nameless r'.expr.nameless) :
    Expr.Regroups (combine tag how (before ++ ⟨name, r⟩ :: after)).expr.nameless
      (combine tag how (before ++ ⟨name, r'⟩ :: after)).expr.nameless := by
  have first := (read.combine_entries even).2.nameless
  have second := (read'.combine_entries even').2.nameless
  have between := regroups_entries how before after apart alone (regroups_exprOf name same)
  rw [nameless_repeats] at first second
  exact (first.trans (between.group.repeats how)).trans second.symm

/-- A rule that stands as a leaf is read as it is, up to names. -/
theorem Sound.nameless_asLeaf {r : Rule} (sound : Sound r) (tag : Nat)
    (tokens_eq : leafTokens r.pattern = tokens false r)
    {parts : Expr × Shape} (read : Sketch.readWith {} (leafTokens r.pattern) = some parts) :
    (r.asLeaf tag).expr.nameless = r.expr.nameless := by
  have named := Sketch.read_nameless (tokens true r)
  have plain := Sketch.read_nameless (tokens false r)
  rw [map_nameless_tokens, named, Sketch.read_eq, Sketch.read_eq, ← tokens_eq, read,
    Option.map_some, Option.map_eq_some_iff] at plain
  obtain ⟨parts', read', same⟩ := plain
  obtain ⟨-, expr_eq⟩ := expr_of_readWith sound.even read'
  have leaf : (r.asLeaf tag).expr = parts.1 := by rw [asLeaf, expr, readExpr, read]
  rw [leaf, ← expr_eq]
  exact congrArg Prod.fst same.symm

/-- With a leaf in place of the rule of an entry, a rule is read to the same expression up to names
    and to how concatenations are put together. By induction on where the entry stands. -/
theorem Hides.regroups {r c c' : Rule} (hides : Hides r c c') (sound : Sound c) {y : List Scalar}
    (fresh : Fresh y) (occurs : Occurs (fun z => Clean (scan (z ++ y))) true c') (read : c.IsRead)
    (read' : c'.IsRead) : Expr.Regroups c.expr.nameless c'.expr.nameless := by
  have firm := hides.firm sound
  have even' := firm.even fresh occurs
  have scannable := firm.scannable fresh
  have lasting := lasting_clean fresh
  induction hides with
  | @here tag how before after name tag' =>
    have inside : Sound r := sound.entry (e := ⟨name, r⟩) (mem_reach List.mem_append_cons_self)
    have alone : literal? name (r.asLeaf tag') = none := rfl
    have entry := Occurs.entry lasting scannable occurs alone
    obtain ⟨t, clean⟩ := entry.leaf
    obtain ⟨-, own⟩ := (read'.combine_entries even').1 _ List.mem_append_cons_self
    obtain ⟨parts, readLeaf⟩ := own (by simp [isGrouped, asLeaf, kind])
    have same := inside.nameless_asLeaf tag'
      (inside.leafTokens_pattern (fresh_paren _) clean) readLeaf
    refine regroups_combine sound.even even' read read' (fun sequence => ?_) alone (same ▸ .refl _)
    refine .inr ⟨occurs.isUtf8_chunk lasting scannable alone sequence, fun literal found => ?_⟩
    obtain ⟨-, tag, rfl⟩ := eq_text_of_literal? found
    exact isUtf8_of_scanned (lasting_clean (fresh_paren (t.scalars ++ y))) literal (s := []) (by
      rwa [List.append_nil])
  | @deeper tag how before after name c c' hides ih =>
    have inside : Sound c := sound.entry (e := ⟨name, c⟩) (mem_reach List.mem_append_cons_self)
    obtain ⟨alone, alone'⟩ := hides.combined name
    have entry : Occurs _ true c' := Occurs.entry lasting scannable occurs alone'
    have firm' := hides.firm inside
    have same := ih inside entry
      ((read.combine_entries sound.even).1 _ List.mem_append_cons_self).1
      ((read'.combine_entries even').1 _ List.mem_append_cons_self).1
      firm' (firm'.even fresh entry) (firm'.scannable fresh)
    exact regroups_combine sound.even even' read read' (fun _ => .inl alone) alone' same

/-- The compiled patterns find the same, and so do those between anchors. -/
theorem Hides.programs {r c c' : Rule} (hides : Hides r c c') (sound : Sound c) {d d' : Compiled}
    (compiled : c.compile = .ok d) (compiled' : c'.compile = .ok d') :
    d'.search.program = d.search.program ∧ d'.whole.program = d.whole.program := by
  obtain ⟨piece, parsed, -⟩ := Regex.of_ofPattern (compile_ok compiled').1
  have plain := sound.searches compiled
  have hidden := (hides.firm sound).searches compiled'
  have same := (hides.regroups sound fresh_nil (occurs_of_parse hides.kind_ne.2 parsed) plain.read
    hidden.read).symm
  have between : Expr.Regroups c'.expr.anchored.nameless c.expr.anchored.nameless :=
    (Expr.Regroups.refl (.test .beginText)).cat (same.cat (.refl (.test .endText)))
  rw [plain.search, plain.whole, hidden.search, hidden.whole, ← Expr.numbered_anchored,
    ← Expr.numbered_anchored]
  exact ⟨Expr.program_eq_of_nameless same, Expr.program_eq_of_nameless between⟩

/-! ### Copies of a leaf -/

/-- True of a rule whose patterns are copies of `r` as a leaf, and accepted patterns in which no group
    has a name. -/
def Reuses (r d : Rule) : Prop :=
  ∀ e ∈ (⟨[], d⟩ : Entry Rule) :: reach d.entries, e.rule.kind = .regex →
    (Accepted e.rule ∧ Unnamed e.rule) ∨ ∃ tag, e.rule = r.asLeaf tag

theorem Reuses.firm {r d : Rule} (reuses : Reuses r d) (sound : Sound r)
    (names : ∀ e ∈ reach d.entries, e.name = [] ∨ isValidName e.name = true) : Firm d where
  names := names
  leaves e mem tag source leaf := by
    rcases reuses e mem (by rw [leaf]; rfl) with ⟨accepted, -⟩ | ⟨tag', copy⟩
    · rw [leaf] at accepted
      exact .inl accepted
    · cases leaf.symm.trans copy
      exact sound.trusted

/-- A rule that can be read has no name in its patterns if the copies have none. -/
theorem Reuses.unnamed {r d : Rule} (reuses : Reuses r d) (sound : Sound r) (plain : Unnamed r)
    (firm : Firm d) {piece : Piece} (parsed : Piece.parse d.namedPattern = .ok piece) :
    Unnamed d := by
  intro e mem tag source leaf
  rcases reuses e mem (by rw [leaf]; rfl) with ⟨-, unnamed⟩ | ⟨tag', copy⟩
  · exact unnamed ⟨[], e.rule⟩ (List.mem_cons_self ..) tag source leaf
  · cases leaf.symm.trans copy
    have same : leafTokens r.pattern = tokens false r := by
      rcases List.mem_cons.1 mem with rfl | mem
      · have clean := clean_of_parse parsed
        rw [show d = regex tag r.pattern from leaf] at clean
        exact sound.leafTokens_pattern fresh_nil (by rwa [List.append_nil])
      · have kind : d.kind ≠ .regex := by
          cases d with
          | regex => nomatch mem
          | _ => nofun
        obtain ⟨t, clean⟩ := firm.stands fresh_nil (occurs_of_parse kind parsed) mem leaf
        exact sound.leafTokens_pattern (fresh_paren _) clean
    rw [same, map_nameless_tokens, tokens_false r plain]

/-- A rule in which no name comes up twice is not refused for a name that comes up twice, if no
    pattern of a leaf names a group. -/
theorem Firm.compile_ne_duplicate {r : Rule} (firm : Firm r) (distinct : r.captures.Nodup)
    (unnamed : ∀ piece, Piece.parse r.namedPattern = .ok piece → Unnamed r) (p name : Bytes) :
    r.compile ≠ .error (.rejected p (.duplicateCapture name)) := by
  have refused {source : Bytes}
      (failed : Regex.ofPattern source = .error (.rejected p (.duplicateCapture name))) :
      ∃ piece, Piece.parse source = .ok piece ∧ repeated? [] piece.expr.names = some name := by
    unfold Regex.ofPattern at failed
    split at failed
    · cases failed
    · split at failed
      · cases failed
        exact ⟨_, ‹_›, ‹_›⟩
      · cases failed
  -- the names are those of the entries, once the pattern has been read
  have fine {piece : Piece} (parsed : Piece.parse r.namedPattern = .ok piece) :
      repeated? [] (Token.names (tokens true r)) = none := by
    rw [names_tokens]
    exact repeated?_of_titles ((unnamed piece parsed).captures_eq_titles ▸ distinct)
  intro failed
  unfold compile at failed
  split at failed
  · rename_i e found
    cases failed
    obtain ⟨piece, parsed, twice⟩ := refused found
    rw [names_of_parse (firm.scan_namedPattern parsed) parsed, fine parsed] at twice
    cases twice
  · rename_i search found
    obtain ⟨piece, parsed, -⟩ := Regex.of_ofPattern found
    split at failed
    · rename_i e found'
      cases failed
      obtain ⟨piece', parsed', twice⟩ := refused found'
      have names : Token.names (anchored (tokens true r)) = Token.names (tokens true r) := by
        simp [anchored, Token.names, Token.names_append]
      rw [names_of_parse (firm.scan_anchor parsed') parsed', names, fine parsed] at twice
      cases twice
    · cases failed

/-- A rule as a leaf can take the place of the rule in any other. Where both are accepted they find
    the same matches in every text, as they stand and between anchors. If no pattern of a leaf names a
    group then neither does the rule as a leaf, and no number of copies of it is a reason to refuse a
    rule for a name that comes up twice. -/
theorem asLeaf_in_context {r c c' : Rule} (sound : Sound c) (hides : Hides r c c') :
    (∀ d d', c.compile = .ok d → c'.compile = .ok d' → ∀ text,
        d'.search.findAll text = d.search.findAll text ∧
          d'.whole.findAll text = d.whole.findAll text) ∧
      (Unnamed r →
        (∀ tag d, (r.asLeaf tag).compile = .ok d →
          ∀ name ∈ d.search.names ++ d.whole.names, name = []) ∧
        ∀ d, (∀ e ∈ reach d.entries, e.name = [] ∨ isValidName e.name = true) → Reuses r d →
          d.captures.Nodup → ∀ p name, d.compile ≠ .error (.rejected p (.duplicateCapture name))) := by
  refine ⟨fun d d' compiled compiled' text => ?_, fun unnamed => ⟨fun tag d compiled => ?_, ?_⟩⟩
  · obtain ⟨search, whole⟩ := hides.programs sound compiled compiled'
    obtain ⟨kind, kind'⟩ := hides.kind_ne
    obtain ⟨lead, lead_whole⟩ := sound.lead_none kind compiled
    obtain ⟨lead', lead_whole'⟩ := (hides.firm sound).lead_none kind' compiled'
    simp only [Regex.findAll, lead, lead', lead_whole, lead_whole', search, whole, and_self]
  · have firm := (hides.sound sound).firm_asLeaf tag
    have reuses : Reuses r (r.asLeaf tag) := by
      intro e mem _
      cases List.mem_singleton.1 mem
      exact .inr ⟨tag, rfl⟩
    obtain ⟨piece, parsed, -⟩ := Regex.of_ofPattern (compile_ok compiled).1
    have plain := reuses.unnamed (hides.sound sound) unnamed firm parsed _ (List.mem_cons_self ..)
      tag _ rfl
    obtain ⟨search, whole⟩ := firm.names_eq compiled
    rw [search, whole]
    have own : groupNames (r.asLeaf tag) = Token.names ((leafTokens r.pattern).map Token.nameless) := by
      rw [plain]
      rfl
    rw [own]
    intro name mem
    exact Token.names_map_nameless _ name (by simpa using mem)
  · intro d names reuses distinct
    have firm := reuses.firm (hides.sound sound) names
    exact firm.compile_ne_duplicate distinct fun piece parsed =>
      reuses.unnamed (hides.sound sound) unnamed firm parsed

namespace Sample

/-- The rule `whole`, its choice as a leaf. -/
def hidden : Rule := combine 5 .seq [⟨"k", choice.asLeaf 7⟩, ⟨[], digit⟩, ⟨[], text 6 "."⟩]

/-- The choice as a leaf twice over. -/
def doubled : Rule := combine 8 .seq [⟨"k", choice.asLeaf 7⟩, ⟨"p", choice.asLeaf 9⟩]

theorem hides_choice : Hides choice whole hidden := @Hides.here _ _ _ [] _ _ 7

theorem unnamed_choice : Unnamed choice :=
  unnamed_whole.entry (e := ⟨"k", choice⟩) (List.mem_cons_self ..)

theorem accepted_hidden : Accepted hidden := by
  have plain : Plain hidden := by
    refine plain_combine 5 .seq (by decide) ?_
    simp only [List.forall_mem_cons, List.not_mem_nil, false_implies, implies_true, and_true]
    exact ⟨plain_choice.asLeaf 7, plain_digit, plain_text 6 "." (by decide)⟩
  have leaf : leafTokens choice.pattern = _ := plain_choice.leafTokens_pattern unnamed_choice
  obtain ⟨c, compiled, -⟩ := plain.compiles_of_isSmall
    [.capture [], .capture "k", .capture [], .capture [], .char 97, .close, .bar,
      .capture [], .enclose [], .char 120, .repeated .plus false "+", .close, .close,
      .repeated .star true "*?", .close, .close, .enclose [],
      .set [⟨⟨[(48, 57)]⟩, false⟩] false, .close, .char 46, .close]
    (by
      simp only [hidden, asLeaf, tokens, seqTokens, leaf]
      simp only [choice, digit, xs, tokens, seqTokens, choiceTokens, plainLeaf_xs.2,
        plainLeaf_digit.2]
      decide)
    (by decide)
  exact ⟨c, compiled⟩

theorem reuses_doubled : Reuses choice doubled := by
  intro e mem _
  rcases mem with _ | ⟨_, _ | ⟨_, _ | ⟨_, mem⟩⟩⟩
  · contradiction
  · exact .inr ⟨7, rfl⟩
  · exact .inr ⟨9, rfl⟩
  · nomatch mem

end Sample

theorem asLeaf_in_context_sample :
    Sound Sample.whole ∧ Hides Sample.choice Sample.whole Sample.hidden ∧
      (∃ d d', Sample.whole.compile = .ok d ∧ Sample.hidden.compile = .ok d' ∧
        d'.search.findAll "a7. x1." = d.search.findAll "a7. x1.") ∧
      Unnamed Sample.choice ∧ Reuses Sample.choice Sample.doubled ∧
      ∀ p name, Sample.doubled.compile ≠ .error (.rejected p (.duplicateCapture name)) := by
  obtain ⟨d, compiled⟩ := Sample.accepted_whole
  obtain ⟨d', compiled'⟩ := Sample.accepted_hidden
  obtain ⟨spans, copies⟩ := asLeaf_in_context Sample.sound_whole Sample.hides_choice
  exact ⟨Sample.sound_whole, Sample.hides_choice,
    ⟨d, d', compiled, compiled', (spans d d' compiled compiled' _).1⟩, Sample.unnamed_choice,
    Sample.reuses_doubled,
    (copies Sample.unnamed_choice).2 _ (by decide) Sample.reuses_doubled (by decide)⟩

end Rule

end Rulebook

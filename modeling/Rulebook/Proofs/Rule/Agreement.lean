import Rulebook.Proofs.Rule.Leads
import Rulebook.Proofs.Tree.Ready
import Rulebook.Proofs.Tree.Recognition

/-!
# Found and matched

The two compiled patterns of a rule agree (`Rule.search_agrees`): a rule that is found over the
whole of a text matches the text, and a rule that matches a text is found in it, at the start before
anywhere else. Nothing is asked of the leaves, because a pattern that is accepted can always stand
between anchors. The one thing in the way is a lead: a pattern that asks for a surrogate at the
start of the text is compared with the text byte by byte if it is tied to the start, and only then
(`Rule.search_disagrees`).
-/

namespace Rulebook

open Pattern

namespace Pattern

/-- A match of a whole text is found first, if there is one. -/
theorem Program.findAll_of_reaches {e : Expr} {text : Bytes} {d : Cursor} {m : Marks}
    (h : (Program.ofExpr e).Reaches (.start text) d m) :
    ∃ f fs, (Program.ofExpr e).findAll none (.start text) = f :: fs ∧ f.start = 0 := by
  have spec := Program.find?_spec e (c := .start text) (wide_scalars text)
  have here : Cursor.start text ∈ (Cursor.start text).onward := Cursor.self_mem_onward _
  cases found : (Program.ofExpr e).find? (.start text) with
  | none =>
    rw [found] at spec
    exact absurd h (spec _ here d m)
  | some f =>
    rw [found] at spec
    obtain ⟨place, -, matched, first⟩ := spec
    have start : f.start = 0 := by
      rw [matched.start]
      by_contra later
      exact first _ here (Nat.pos_of_ne_zero later) d m h
    -- nothing has been found before, so that an empty match counts too
    have lists := Program.lists_findAll (Program.ofExpr e) none (.start text)
    generalize (Program.ofExpr e).findAll none (.start text) = fs at lists
    cases lists with
    | none nothing => cases found.symm.trans nothing
    | ended same => cases found.symm.trans same; exact ⟨f, [], rfl, start⟩
    | empty same => cases found.symm.trans same; exact ⟨f, _, rfl, start⟩
    | full same => cases found.symm.trans same; exact ⟨f, _, rfl, start⟩

end Pattern

namespace Rule

variable {r : Rule} {c : Compiled}

/-- What the compiled patterns of a rule search for, whatever its leaves are. -/
structure Anchors (c : Compiled) (e : Expr) : Prop where
  search : c.search.program = .ofExpr e
  whole : c.whole.program = .ofExpr e.anchored
  search_lead : e.Possible → c.search.lead = none
  whole_lead : e.anchored.Possible → c.whole.lead = none

theorem exists_anchors (compiled : r.compile = .ok c) : ∃ e, Anchors c e := by
  have leaf : (regex 0 r.namedPattern).compile = .ok c := compiled
  have firm := (sound_regex ⟨c, leaf⟩).firm
  obtain ⟨piece, parsed, -, program, lead, -⟩ := Regex.of_ofPattern (compile_ok leaf).1
  obtain ⟨piece', parsed', -, program', lead', -⟩ := Regex.of_ofPattern (compile_ok leaf).2
  have inner : piece.expr = (regex 0 r.namedPattern).expr.numbered := (firm.expr_parse parsed).2
  have outer : piece'.expr = piece.expr.anchored := by
    rw [inner]
    exact firm.anchored_parse parsed parsed'
  refine ⟨piece.expr, program, outer ▸ program', fun possible => ?_, fun possible => ?_⟩
  · exact lead.trans (Piece.lead_none parsed possible)
  · exact lead'.trans (Piece.lead_none parsed' (outer ▸ possible))

/-- A match of a whole text is a match between anchors, and the other way round. -/
theorem Anchors.isSome_whole_iff {e : Expr} (anchors : Anchors c e) (text : Bytes) :
    (c.whole.program.find? (.start text)).isSome = true ↔
      ∃ d m, d.rest = [] ∧ e.passes (.start text) d m := by
  rw [anchors.whole]
  have spec := Program.find?_spec e.anchored (c := .start text) (wide_scalars text)
  cases found : (Program.ofExpr e.anchored).find? (.start text) with
  | none =>
    rw [found] at spec
    refine ⟨nofun, ?_⟩
    rintro ⟨d, m, last, passage⟩
    exact absurd (Expr.reaches_iff.2 (passes_anchored.2 ⟨rfl, last, passage⟩))
      (spec _ (Cursor.self_mem_onward _) d m)
  | some f =>
    refine ⟨fun _ => ?_, fun _ => rfl⟩
    obtain ⟨place, mem, matched⟩ := Program.matchAt_of_find? found
    obtain ⟨first, last, passage⟩ := passes_anchored.1 (Expr.reaches_iff.1 matched.path)
    obtain rfl := eq_start_of_before mem first
    exact ⟨f.stop, f.marks, last, passage⟩

/-- A match that has taken the whole of a text goes from its start to its end. -/
theorem whole_of_slice {e : Expr} {text : Bytes} {place : Cursor} {f : Program.Found}
    (onward : place ∈ (Cursor.start text).onward) (matched : (Program.ofExpr e).MatchAt place f)
    (whole : text.slice f.start f.finish = text) : place = .start text ∧ f.stop.rest = [] := by
  have stop := Cursor.onward_trans onward matched.path.mem_onward
  have bytes := Cursor.offset_add_length stop
  have length := congrArg List.length whole
  have fits : f.finish ≤ text.length := by
    simp only [Program.Found.finish]
    omega
  rw [Bytes.length_slice f.start fits] at length
  have le := matched.start_le_finish
  have start : f.start = 0 ∧ f.stop.offset = text.length := by
    simp only [Program.Found.finish] at length le
    omega
  constructor
  · refine Cursor.eq_of_offset (wide_scalars text) onward (Cursor.self_mem_onward _) ?_
    rw [← matched.start]
    exact start.1
  · obtain ⟨taken, split, -⟩ := Cursor.mem_onward.1 stop
    cases rest : f.stop.rest with
    | nil => rfl
    | cons s more =>
      have wide := wide_scalars text s (by
        rw [show text.scalars = taken ++ f.stop.rest from split, rest]
        simp)
      rw [rest, Bytes.ofScalars_cons, List.length_append] at bytes
      rw [Scalar.width] at wide
      omega

/-- A rule that takes single characters finds a text of one character as a whole. -/
theorem Sound.findAll_of_single (sound : Sound r) (compiled : r.compile = .ok c)
    (lead : c.search.lead = none) (free : r.expr.isFree = true) {text : Bytes} {s : Scalar}
    (one : text.scalars = [s]) (mem : [s] ∈ r.expr.language) (some_char : [] ∉ r.expr.language) :
    ∃ f fs, c.search.findAll text = f :: fs ∧ f.start = 0 ∧ f.finish = text.length := by
  have reads : r.expr.numbered.passes.Reads r.expr.language := by
    have reads := Expr.reads_passes (e := r.expr.numbered) (by rwa [Expr.numbered, Expr.isFree_numberFrom])
    rwa [Expr.numbered, Expr.language_numberFrom] at reads
  have all : c.search.findAll text = (Program.ofExpr r.expr.numbered).findAll none (.start text) := by
    rw [Regex.findAll, lead, (sound.searches compiled).search]
  have width : text.length = s.width := by
    rw [← Bytes.ofScalars_scalars text, one]
    simp [Scalar.width]
  obtain ⟨m, passage⟩ := (reads (.start text) ((Cursor.start text).advance [s] [])).2
    ⟨[s], mem, one, rfl⟩
  obtain ⟨f, fs, found, start⟩ := Program.findAll_of_reaches (Expr.reaches_iff.2 passage)
  refine ⟨f, fs, all.trans found, start, ?_⟩
  -- what was found starts at the start and is not empty, so it is the character
  have matched := found ▸ List.mem_cons_self (a := f) (l := fs)
  obtain ⟨place, onward, matched⟩ := (Program.lists_findAll _ _ _).matchAt matched
  obtain rfl : place = .start text :=
    Cursor.eq_of_offset (wide_scalars text) onward (Cursor.self_mem_onward _)
      (matched.start.symm.trans start)
  obtain ⟨w, read, rest, stop⟩ := (reads _ _).1 ⟨_, Expr.reaches_iff.1 matched.path⟩
  have text_eq : [s] = w ++ f.stop.rest := one.symm.trans rest
  cases w with
  | nil => exact absurd read some_char
  | cons s' w =>
    obtain ⟨rfl, tail⟩ := List.cons.inj text_eq
    obtain ⟨rfl, -⟩ := List.append_eq_nil_iff.1 tail.symm
    rw [Program.Found.finish, stop, Cursor.offset_advance, width]
    simp [Cursor.start, Scalar.width]

/-- A rule that matches a text is found in it, at the start first, if it is not matched by a lead. -/
theorem exists_found_of_matches (compiled : r.compile = .ok c) (lead : c.whole.lead = none)
    {text : Bytes} (matched : r.Matches text) :
    ∃ f fs, c.search.findAll text = f :: fs ∧ f.start = 0 := by
  obtain ⟨e, anchors⟩ := exists_anchors compiled
  rw [matches_iff_occursIn compiled, Regex.occursIn, Regex.find?, lead] at matched
  obtain ⟨d, m, -, passage⟩ := (anchors.isSome_whole_iff text).1 matched
  rw [Regex.findAll, anchors.search_lead (Expr.possible_of_passes passage), anchors.search]
  exact Program.findAll_of_reaches (Expr.reaches_iff.2 passage)

/-- A rule that is ready has a tree in every text that it matches, if it does so by its program. -/
theorem Ready.nodes_ne_nil (ready : Ready r) (compiled : r.compile = .ok c) (lead : c.whole.lead = none)
    {text : Bytes} (matched : r.Matches text) : r.nodes text ≠ [] := by
  obtain ⟨f, fs, all, -⟩ := exists_found_of_matches compiled lead matched
  obtain ⟨t, ts, -, -, same⟩ := List.forall₂_cons_left_iff.1 (all ▸ ready.forall₂_nodes compiled text)
  rw [same]
  exact List.cons_ne_nil t ts

/-- The two compiled patterns of a rule agree, unless the one that has found something has done so
    by a lead: what is found over the whole of a text matches the text, and what matches a text is
    found in it, at its start first. -/
theorem search_agrees (compiled : r.compile = .ok c) (text : Bytes) :
    (c.search.lead = none → ∀ t ∈ r.nodes text, t.text = text → r.Matches text) ∧
      (c.whole.lead = none → r.Matches text →
        ∃ f fs, c.search.findAll text = f :: fs ∧ f.start = 0) := by
  refine ⟨fun lead t mem spans => ?_, fun lead => exists_found_of_matches compiled lead⟩
  obtain ⟨e, anchors⟩ := exists_anchors compiled
  rw [matches_iff_occursIn compiled, Regex.occursIn, Regex.find?]
  obtain ⟨c', found, compiled', mem, node⟩ := nodeOf_of_mem mem
  cases compiled.symm.trans compiled'
  rw [Regex.findAll, lead, anchors.search] at mem
  obtain ⟨place, onward, matched⟩ := (Program.lists_findAll _ _ _).matchAt mem
  obtain ⟨rfl, last⟩ := whole_of_slice onward matched (node.text_eq.symm.trans spans)
  have passage := Expr.reaches_iff.1 matched.path
  have between : e.anchored.passes (.start text) found.stop found.marks :=
    passes_anchored.2 ⟨rfl, last, passage⟩
  rw [anchors.whole_lead (Expr.possible_of_passes between)]
  exact (anchors.isSome_whole_iff text).2 ⟨_, _, last, passage⟩

namespace Sample

/-- One of two letters, large or small. The bar is not in a group, so anchors must not stand beside
    it as it is. -/
def letter : Rule := regex 8 "(?i)a|b"

theorem plainLeaf_letter : PlainLeaf "(?i)a|b" ∧
    leafTokens "(?i)a|b" = [.change [(.fold, true)], .char 97, .bar, .char 98] :=
  plainLeaf_of_scan (by decide +kernel) (by decide) (by decide) (by decide)

theorem compiles_letter : ∃ c, letter.compile = .ok c ∧ c.search.lead = none ∧ c.whole.lead = none :=
  (plainLeaf_letter.1.plain 8).compiles_of_isSmall _ plainLeaf_letter.2 (by decide)

theorem expr_letter : letter.expr = .alt (.one ⟨[(65, 65), (97, 97)]⟩) (.one ⟨[(66, 66), (98, 98)]⟩) := by
  rw [letter, expr, plainLeaf_letter.2]
  decide

end Sample

theorem search_agrees_letter : ∃ c, Sample.letter.compile = .ok c ∧
    (c.search.lead = none ∧ c.whole.lead = none) ∧
    (∃ t ∈ Sample.letter.nodes "B", t.text = "B") ∧ Sample.letter.Matches "B" ∧
    ∃ f fs, c.search.findAll "B" = f :: fs ∧ f.start = 0 := by
  obtain ⟨c, compiled, leads⟩ := Sample.compiles_letter
  have sound : Sound Sample.letter := sound_regex ⟨c, compiled⟩
  have ready : Ready Sample.letter := ⟨sound, ⟨c, compiled⟩, nofun⟩
  have free : Sample.letter.expr.isFree = true := by
    rw [Sample.expr_letter]
    rfl
  have mem : ([.ascii 66] : List Scalar) ∈ Sample.letter.expr.language := by
    rw [Sample.expr_letter]
    exact .inr ⟨_, rfl, by decide⟩
  have some_char : ([] : List Scalar) ∉ Sample.letter.expr.language := by
    rw [Sample.expr_letter]
    rintro (⟨s, none, -⟩ | ⟨s, none, -⟩) <;> cases none
  have matched : Sample.letter.Matches "B" := sound.matches_of_mem compiled free mem
  have one : Bytes.scalars "B" = [.ascii 66] := rfl
  obtain ⟨f, fs, all, start, finish⟩ :=
    sound.findAll_of_single compiled leads.1 free one mem some_char
  obtain ⟨t, ts, node, -, same⟩ :=
    List.forall₂_cons_left_iff.1 (all ▸ ready.forall₂_nodes compiled "B")
  have spans : t.text = "B" := by
    rw [node.text_eq, start, finish]
    rfl
  have here : t ∈ Sample.letter.nodes "B" := same ▸ List.mem_cons_self ..
  obtain ⟨found, nodes⟩ := search_agrees compiled "B"
  exact ⟨c, compiled, leads, ⟨t, here, spans⟩, found leads.1 t here spans, nodes leads.2 matched⟩

/-! ### A surrogate -/

/-- A rule is accepted if both of its patterns are. -/
theorem accepted_of_isOk (r : Rule) (search : (Regex.ofPattern r.namedPattern).isOk = true)
    (whole : (Regex.ofPattern (anchor r.namedPattern)).isOk = true) : Accepted r := by
  cases read : Regex.ofPattern r.namedPattern with
  | error =>
    rw [read] at search
    cases search
  | ok found =>
    cases read' : Regex.ofPattern (anchor r.namedPattern) with
    | error =>
      rw [read'] at whole
      cases whole
    | ok found' => exact ⟨⟨found, found'⟩, by rw [compile, read, read']⟩

namespace Sample

/-- A pattern that asks for a surrogate. -/
def surrogate : Bytes := "\\x\x7bD800\x7d"

/-- The same between the start and the end of the text. -/
def tied : Bytes := "^\\x\x7bD800\x7d$"

/-- The replacement character in bytes. -/
def replacement : Bytes := [0xEF, 0xBF, 0xBD]

/-- A surrogate between the start and the end of the text. -/
def tiedShape : Shape :=
  .cat [.test .beginText, .literal [0xD800] ⟨false, false, false, false⟩ none, .test .endText] none

/-- True if what is read of a pattern is a surrogate between the start and the end of the text. -/
def isTied : Except Fault Piece → Bool
  | .ok ⟨_, .cat [.test .beginText, .literal [0xD800] ⟨false, false, false, false⟩ none,
      .test .endText] none⟩ => true
  | _ => false

/-- True of an expression with a surrogate in it that cannot be left out. -/
def needsSurrogate : Expr → Bool
  | .one ⟨[(0xD800, 0xD800)]⟩ => true
  | .group _ _ e => needsSurrogate e
  | .cat a b => needsSurrogate a || needsSurrogate b
  | _ => false

/-- True if what is read of a pattern needs a surrogate but has no lead. -/
def isVain : Except Fault Piece → Bool
  | .ok ⟨e, shape⟩ =>
      needsSurrogate e &&
        (Net.ofExpr shape.toExpr).lead?.all fun codes => !codes.any Net.isSurrogate
  | _ => false

theorem not_possible_of_needsSurrogate {e : Expr} (h : needsSurrogate e = true) : ¬ e.Possible := by
  fun_induction needsSurrogate e with
  | case1 =>
    rintro ⟨code, voiced, holds⟩
    have : 55296 ≤ code ∧ code ≤ 55296 := by simpa [CharSet.contains] using holds
    obtain rfl : code = 0xD800 := by omega
    cases voiced
  | case2 _ _ e ih => exact ih h
  | case3 a b iha ihb =>
    rintro ⟨ha, hb⟩
    obtain left | right := Bool.or_eq_true_iff.1 h
    · exact iha left ha
    · exact ihb right hb
  | case4 => cases h

theorem isDecided_tied : (Net.ofExpr tiedShape.toExpr).isDecided = true := by
  have net : Net.ofExpr tiedShape.toExpr =
    ⟨1, #[.fail, .test .beginText 2, .one (.single 0xD800) 3, .test .endText 4, .accept]⟩ := rfl
  have short : (Net.ofExpr tiedShape.toExpr).shortened = Net.ofExpr tiedShape.toExpr := rfl
  rw [Net.isDecided, short, net]
  simp [Net.decidesAll, Net.decides, Net.place, Net.maxPlaces, Net.endsPlainly,
    Net.Survey.look, Net.Survey.meet, Net.Survey.note, Place.isAccept, Place.isFork]

/-- Between the start and the end of the text a surrogate is found by its lead. -/
theorem find?_of_isTied {source : Bytes} {regex : Regex}
    (compiled : Regex.ofPattern source = .ok regex) (tied : isTied (Piece.parse source) = true) :
    ∃ lead m, regex.lead = some lead ∧
      lead.find? replacement = some ⟨0, ⟨some '\uFFFD', 3, []⟩, m⟩ := by
  obtain ⟨piece, parsed, -, -, lead, -⟩ := Regex.of_ofPattern compiled
  rw [parsed] at tied
  unfold isTied at tied
  split at tied
  · rename_i same
    cases same
    have light : ¬ 100 * Net.maxPlaces ≤ tiedShape.allWeighed.weight := by decide
    have codes : (Net.ofExpr tiedShape.toExpr).lead? = some [0xD800] := rfl
    have led : Lead.ofShape? tiedShape = some ⟨replacement,
        { Program.ofExpr tiedShape.toExpr with steps := [.test .endText] }⟩ := by
      rw [Lead.ofShape?, if_neg light]
      simp only [codes, isDecided_tied]
      rfl
    refine ⟨_, [], lead.trans led, ?_⟩
    have last : (Bytes.scalars replacement).getLast?.map Scalar.char = some '\uFFFD' := by decide
    have whole : replacement.isPrefixOf replacement = true := by decide
    have past : Bytes.scalars (replacement.drop replacement.length) = [] := by decide
    simp only [Lead.find?, last, whole, past, if_true]
    simp [Program.run, Cursor.holds, replacement]
  · cases tied

theorem findAll_of_isVain {source : Bytes} {regex : Regex}
    (compiled : Regex.ofPattern source = .ok regex) (vain : isVain (Piece.parse source) = true)
    (text : Bytes) :
    regex.find? text = none ∧ regex.findAll text = [] := by
  obtain ⟨piece, parsed, -, program, lead, -⟩ := Regex.of_ofPattern compiled
  rw [parsed, isVain, Bool.and_eq_true] at vain
  have unled : regex.lead = none := by
    rw [lead]
    refine Lead.ofShape?_of_lead? fun codes same => ?_
    have := vain.2
    rw [same] at this
    simpa using this
  have nothing : regex.program.find? (.start text) = none := by
    cases found : regex.program.find? (.start text) with
    | none => rfl
    | some f =>
      rw [program] at found
      obtain ⟨place, -, matched⟩ := Program.matchAt_of_find? found
      exact absurd (Expr.possible_of_passes (Expr.reaches_iff.1 matched.path))
        (not_possible_of_needsSurrogate vain.1)
  constructor
  · rw [Regex.find?, unled]
    exact nothing
  · rw [Regex.findAll, unled]
    have lists := Program.lists_findAll regex.program none (.start text)
    generalize regex.program.findAll none (.start text) = fs at lists
    cases lists with
    | none => rfl
    | ended same | empty same | full same => cases nothing.symm.trans same

/-- A surrogate is never found, but as a whole text it is found by its lead. -/
theorem compiles_surrogate : ∃ c lead m, (regex 0 surrogate).compile = .ok c ∧
    (∀ text, c.search.findAll text = []) ∧ c.whole.lead = some lead ∧
    lead.find? replacement = some ⟨0, ⟨some '\uFFFD', 3, []⟩, m⟩ := by
  obtain ⟨c, compiled⟩ : Accepted (regex 0 surrogate) :=
    accepted_of_isOk _ (by decide +kernel) (by decide +kernel)
  obtain ⟨search, whole⟩ := compile_ok compiled
  obtain ⟨lead, m, led, found⟩ := find?_of_isTied whole (by decide +kernel)
  exact ⟨c, lead, m, compiled, fun text => (findAll_of_isVain search (by decide +kernel) text).2, led, found⟩

/-- Between the bounds of the text it is found by its lead, but never as a whole text. -/
theorem compiles_tied : ∃ c lead m, (regex 0 tied).compile = .ok c ∧
    (c.search.lead = some lead ∧ lead.find? replacement = some ⟨0, ⟨some '\uFFFD', 3, []⟩, m⟩) ∧
    ∀ text, c.whole.find? text = none := by
  obtain ⟨c, compiled⟩ : Accepted (regex 0 tied) :=
    accepted_of_isOk _ (by decide +kernel) (by decide +kernel)
  obtain ⟨search, whole⟩ := compile_ok compiled
  obtain ⟨lead, m, led, found⟩ := find?_of_isTied search (by decide +kernel)
  exact ⟨c, lead, m, compiled, ⟨led, found⟩, fun text => (findAll_of_isVain whole (by decide +kernel) text).1⟩

theorem accepted_tied : Accepted (regex 0 tied) := by
  obtain ⟨c, -, -, compiled, -⟩ := compiles_tied
  exact ⟨c, compiled⟩

end Sample

/-- A surrogate matches the replacement character, but is not found in it; and between the bounds of
    the text it is found but does not match. -/
theorem search_disagrees :
    (Accepted (regex 0 Sample.surrogate) ∧ (regex 0 Sample.surrogate).Matches Sample.replacement ∧
      ∀ c, (regex 0 Sample.surrogate).compile = .ok c → c.search.findAll Sample.replacement = []) ∧
    (Accepted (regex 0 Sample.tied) ∧ ¬ (regex 0 Sample.tied).Matches Sample.replacement ∧
      ∃ t ∈ (regex 0 Sample.tied).nodes Sample.replacement, t.text = Sample.replacement) := by
  obtain ⟨c, lead, m, compiled, nothing, led, found⟩ := Sample.compiles_surrogate
  obtain ⟨c', lead', m', compiled', ⟨led', found'⟩, nothing'⟩ := Sample.compiles_tied
  refine ⟨⟨⟨c, compiled⟩, ?_, ?_⟩, ⟨c', compiled'⟩, ?_, ?_⟩
  · rw [matches_iff_occursIn compiled, Regex.occursIn, Regex.find?, led]
    simp only [found, Option.isSome_some]
  · intro _ same
    cases compiled.symm.trans same
    exact nothing _
  · rw [matches_iff_occursIn compiled', Regex.occursIn, nothing']
    exact Bool.false_ne_true
  · have ready : Ready (regex 0 Sample.tied) := by
      refine ⟨sound_regex Sample.accepted_tied, Sample.accepted_tied, ?_⟩
      intro e mem
      cases mem
    have nodes := ready.forall₂_nodes compiled' Sample.replacement
    rw [Regex.findAll, led'] at nodes
    simp only [found', Option.toList_some] at nodes
    obtain ⟨t, ts, node, -, same⟩ := List.forall₂_cons_left_iff.1 nodes
    exact ⟨t, same ▸ List.mem_cons_self .., node.text_eq⟩

end Rule

end Rulebook

import Rulebook.Proofs.Definition.Cutting

/-!
# What the nodes of the grammar hold
-/

namespace Rulebook

open Pattern Bytes

namespace Bootstrap

open Rule

/-! ### Parts of sequences -/

section

variable {before after : List (Entry Rule)} {e : Entry Rule} {text : Bytes} {t child : Tree}

/-- True of the part of a node for an entry of a sequence: it stands between what the entries before it
    took and what those after it took. -/
structure Between (before : List (Entry Rule)) (e : Entry Rule) (after : List (Entry Rule))
    (t child : Tree) : Prop where
  words : ∃ u ∈ (Expr.concat (before.map exprOf)).language,
    ∃ v ∈ (Expr.concat (after.map exprOf)).language, t.text.scalars = u ++ (child.text.scalars ++ v)
  mem : child.text.scalars ∈ e.rule.expr.language
  named : t.child? e.name = some child
  grown : Grown e.rule child

/-- A node of a sequence has a part for each named entry. -/
theorem exists_between (legal : Legal (seq (before ++ e :: after)))
    (free : (seq (before ++ e :: after)).expr.isFree = true)
    (distinct : (((before ++ e :: after).filter Entry.isNamed).map Entry.name).Nodup)
    (isNamed : e.isNamed = true) {c : Compiled} (compiled : (seq (before ++ e :: after)).compile = .ok c)
    {regex : Regex} (names : regex.names = (seq (before ++ e :: after)).expr.names)
    {found : Program.Found} {place : Cursor} {offset : Nat} (onward : place ∈ (Cursor.start text).onward)
    (start : found.start = place.offset)
    (passage : (seq (before ++ e :: after)).expr.numbered.passes place found.stop found.marks)
    (node : NodeOf (seq (before ++ e :: after)) regex found text offset t) :
    ∃ child, Between before e after t child := by
  obtain ⟨c', d', inner, first, middle, last, built, child_eq⟩ :=
    Sound.part_of_seq before e after legal.sound legal.texts compiled names passage node distinct isNamed
  have entries : ∀ d ∈ before ++ e :: after, (exprOf d).isFree = true := by
    have same := (legal.sound.regroups_combine legal.read legal.texts).isFree_eq
    rw [isFree_repeats, Expr.isFree, isFree_joins, List.all_map] at same
    exact List.all_eq_true.1 (same.symm.trans free)
  have free_concat {es : List (Entry Rule)} (sub : ∀ d ∈ es, d ∈ before ++ e :: after) :
      (Expr.concat (es.map exprOf)).isFree = true := by
    rw [Expr.isFree_concat, List.all_map, List.all_eq_true]
    exact fun d mem => entries d (sub d mem)
  have own : e.rule.expr.isFree = true := isFree_exprOf e ▸ entries e (by simp)
  obtain ⟨u, mem_u, rest_u, stop_u⟩ :=
    (Expr.leads_of_free (free_concat fun d mem => List.mem_append_left _ mem)).1 first
  obtain ⟨w, mem_w, rest_w, stop_w⟩ := (Expr.leads_of_free own).1 middle
  obtain ⟨v, mem_v, rest_v, stop_v⟩ := (Expr.leads_of_free (free_concat fun d mem =>
    List.mem_append_right _ (List.mem_cons_of_mem _ mem))).1 last
  have taken := scalars_slice (Cursor.onward_trans onward first.mem_onward) rest_w stop_w
  have legal_e : Legal e.rule := legal.entry (e := e) (by simp)
  have standard := isStandard_of_mem legal_e.sound own (taken ▸ mem_w)
  have inner_eq : inner.text.scalars = w := by
    rw [(legal_e.sound.text_of_descend standard built).1, taken]
  have stop : d' = place.advance (u ++ w) d'.rest := by
    rw [stop_w, stop_u, rest_w, Cursor.advance_advance]
    rfl
  have whole : t.text.scalars = u ++ (w ++ v) := by
    rw [node.text_eq, start]
    refine scalars_slice onward ?_ ?_
    · rw [rest_u, rest_w, rest_v, List.append_assoc, List.append_assoc]
    · rw [stop_v, stop, rest_v, Cursor.advance_advance, List.append_assoc]
      rfl
  refine ⟨inner.rename e.name, ⟨⟨u, mem_u, v, mem_v, ?_⟩, ?_, child_eq, _, _, _, _, built, rfl⟩⟩
  · rwa [Tree.text_rename, inner_eq]
  · rwa [Tree.text_rename, inner_eq]

theorem between_of_mem (before : List (Entry Rule)) (e : Entry Rule) (after : List (Entry Rule))
    (legal : Legal (seq (before ++ e :: after)))
    (free : (seq (before ++ e :: after)).expr.isFree = true)
    (distinct : (((before ++ e :: after).filter Entry.isNamed).map Entry.name).Nodup)
    (isNamed : e.isNamed = true) (mem : t ∈ (seq (before ++ e :: after)).nodes text) :
    ∃ child, Between before e after t child := by
  obtain ⟨c, found, compiled, mem, node⟩ := nodeOf_of_mem mem
  have searches := legal.sound.searches compiled
  rw [Regex.findAll, (legal.sound.lead_none (by simp [seq, kind]) compiled).1, searches.search] at mem
  obtain ⟨place, onward, matched⟩ := (Program.lists_findAll _ _ _).matchAt mem
  exact exists_between legal free distinct isNamed compiled searches.names onward matched.start
    (Expr.reaches_iff.1 matched.path) node

/-- A grown tree of a rule other than a pattern, for a text of the rule. -/
theorem Grown.whole {r : Rule} (legal : Legal r) (free : r.expr.isFree = true) (kind : r.kind ≠ .regex)
    (grown : Grown r t) (mem : t.text.scalars ∈ r.expr.language) :
    ∃ span offset c found inner name, WholeNode r span offset c found inner ∧ t = inner.rename name := by
  obtain ⟨span, offset, inner, name, built, rfl⟩ := grown
  have standard : IsStandard r := by
    rintro tag source c rfl
    exact absurd rfl kind
  obtain ⟨c, compiled, -⟩ := descend_ok built
  rw [Tree.text_rename, (legal.sound.text_of_descend standard built).1] at mem
  obtain ⟨c, found, whole⟩ :=
    legal.sound.wholeNode standard (legal.sound.matches_of_mem compiled free mem) built
  exact ⟨span, offset, c, found, inner, name, whole, rfl⟩

/-- A node for a whole text of a sequence, under a name. -/
theorem between_of_whole (before : List (Entry Rule)) (e : Entry Rule) (after : List (Entry Rule))
    (legal : Legal (seq (before ++ e :: after)))
    (free : (seq (before ++ e :: after)).expr.isFree = true)
    (distinct : (((before ++ e :: after).filter Entry.isNamed).map Entry.name).Nodup)
    (isNamed : e.isNamed = true) {offset : Nat} {c : Compiled} {found : Program.Found} {inner : Tree}
    (whole : WholeNode (seq (before ++ e :: after)) text offset c found inner) (name : Bytes) :
    ∃ child, Between before e after (inner.rename name) child := by
  obtain ⟨child, words, mem, named, grown⟩ := exists_between legal free distinct isNamed whole.compiled
    (legal.sound.searches whole.compiled).whole_names (Cursor.self_mem_onward _) whole.start
    whole.passage whole.node
  refine ⟨child, by rwa [Tree.text_rename], mem, ?_, grown⟩
  rwa [Tree.child?, Tree.children_rename]

/-- A grown tree of a choice between named entries has one part, which is grown for the same text. -/
theorem part_of_oneOf {entries : List (Entry Rule)} (legal : Legal (oneOf entries))
    (avoids : Avoids 10 (oneOf entries)) (several : entries ≠ [])
    (named : ∀ e ∈ entries, e.isNamed = true) (grown : Grown (oneOf entries) t)
    (mem : t.text.scalars ∈ (oneOf entries).expr.language) :
    ∃ e ∈ entries, ∃ child, t.children = [child] ∧ child.name = e.name ∧ Grown e.rule child ∧
      child.text = t.text ∧ t.text.scalars ∈ e.rule.expr.language := by
  obtain ⟨span, offset, c, found, inner, name, whole, rfl⟩ :=
    Grown.whole legal (legal.isFree avoids) (by simp [oneOf, kind]) grown mem
  have shows : (oneOf entries).Shows ((taken c.whole found (oneOf entries).entries).map (·.1.name)) :=
    (legal.sound.shows_taken whole.compiled (legal.sound.searches whole.compiled).whole_names
      fun _ => ⟨_, whole.passage⟩).1
  rw [← map_name_children whole.node.children] at shows
  obtain ⟨-, -, one⟩ : Combinator.Shows .oneOf entries (inner.children.map Tree.name) := shows
  have single := one several named
  rw [List.length_map] at single
  obtain ⟨child, eq⟩ := List.length_eq_one_iff.1 single
  obtain ⟨e, entry, isNamed, leads, inner', built, rfl⟩ :=
    Sound.part_of_oneOf legal.sound legal.texts whole (eq ▸ List.mem_singleton_self _)
  have own : e.rule.expr.isFree = true := (legal.entry entry).isFree (avoids.entry entry)
  obtain ⟨w, here, split, -⟩ := (Expr.leads_of_free own).1 leads
  rw [whole.stop, List.append_nil] at split
  rw [← split] at here
  have sound := (legal.entry entry).sound
  have standard := isStandard_of_mem sound own here
  have text_eq := (sound.text_of_descend standard built).1
  refine ⟨e, entry, _, by rwa [Tree.children_rename], Tree.name_rename .., ⟨_, _, _, _, built, rfl⟩, ?_, ?_⟩
  · rw [Tree.text_rename, Tree.text_rename, whole.text_eq, text_eq]
  · rw [Tree.text_rename, whole.text_eq]
    exact here

end

/-! ### Where words end -/

theorem mem_language_nil {w : List Scalar} :
    w ∈ (Expr.concat (([] : List (Entry Rule)).map exprOf)).language ↔ w = [] := Iff.rfl

theorem mem_language_one {e : Entry Rule} {w : List Scalar} :
    w ∈ (Expr.concat ([e].map exprOf)).language ↔ w ∈ e.rule.expr.language := by
  rw [mem_language_entries]
  simp [List.forall₂_cons_right_iff]

theorem mem_language_two {e d : Entry Rule} {w : List Scalar} :
    w ∈ (Expr.concat ([e, d].map exprOf)).language ↔
      ∃ u ∈ e.rule.expr.language, ∃ v ∈ d.rule.expr.language, w = u ++ v := by
  rw [mem_language_entries]
  simp only [List.forall₂_cons_right_iff, List.forall₂_nil_right_iff]
  constructor
  · rintro ⟨_, ⟨u, _, first, ⟨v, _, second, rfl, rfl⟩, rfl⟩, rfl⟩
    exact ⟨u, first, v, second, by simp⟩
  · rintro ⟨u, first, v, second, rfl⟩
    exact ⟨[u, v], ⟨u, _, first, ⟨v, _, second, rfl, rfl⟩, rfl⟩, by simp⟩

/-- A text is cut in one way where its last part consists of characters of one kind and its first part
    does not end with one of them. -/
theorem cut_unique {p : Scalar → Prop} {x y x' y' : List Scalar} (eq : x ++ y = x' ++ y')
    (last : ∀ s ∈ x.getLast?, ¬ p s) (all : ∀ s ∈ y, p s) (last' : ∀ s ∈ x'.getLast?, ¬ p s)
    (all' : ∀ s ∈ y', p s) : x = x' ∧ y = y' := by
  have none {x z y : List Scalar} (last : ∀ s ∈ (x ++ z).getLast?, ¬ p s) (all : ∀ s ∈ z ++ y, p s) :
      z = [] := by
    by_contra full
    have here : z.getLast full ∈ (x ++ z).getLast? := by
      rw [List.getLast?_append, List.getLast?_eq_some_getLast full]
      rfl
    exact last _ here (all _ (List.mem_append_left _ (List.getLast_mem full)))
  obtain ⟨z, rfl, rfl⟩ | ⟨z, rfl, rfl⟩ := List.append_eq_append_iff.1 eq
  · obtain rfl := none last' all
    simp
  · obtain rfl := none last all'
    simp

/-- A text is cut in one way where its first part consists of characters of one kind and its last part
    does not start with one of them. -/
theorem cut_unique_front {p : Scalar → Prop} {x y x' y' : List Scalar} (eq : x ++ y = x' ++ y')
    (all : ∀ s ∈ x, p s) (start : ∀ s ∈ y.head?, ¬ p s) (all' : ∀ s ∈ x', p s)
    (start' : ∀ s ∈ y'.head?, ¬ p s) : x = x' ∧ y = y' := by
  have none {x z y : List Scalar} (start : ∀ s ∈ (z ++ y).head?, ¬ p s) (all : ∀ s ∈ x ++ z, p s) :
      z = [] := by
    cases z with
    | nil => rfl
    | cons s z => exact absurd (all s (by simp)) (start s rfl)
  obtain ⟨z, rfl, rfl⟩ | ⟨z, rfl, rfl⟩ := List.append_eq_append_iff.1 eq
  · obtain rfl := none start all'
    simp
  · obtain rfl := none start' all
    simp

/-- True of a rule none of whose texts ends with a character of certain code points. -/
def EndsOff (codes : List Nat) (r : Rule) : Prop :=
  ∀ w ∈ r.expr.language, ∀ s ∈ w.getLast?, s.code ∉ codes

section

variable {codes : List Nat} {w : List Scalar}

theorem getLast?_append_of_ne_nil {x y : List Scalar} (full : y ≠ []) :
    (x ++ y).getLast? = y.getLast? := by
  rw [List.getLast?_append, List.getLast?_eq_some_getLast full, Option.some_or]

/-- What may stand after a value or an alternative: blanks, line breaks, semicolons and bars. -/
def trailing : List Nat := [9, 10, 13, 32, 59, 124]

theorem endsOff_literal : EndsOff (trailing ++ signs) literal := by
  intro w mem
  have quoted {mark : Nat} {set : CharSet} (mem : w ∈ (quotedExpr mark set).language) :
      ∀ s ∈ w.getLast?, s.code = mark := by
    obtain ⟨left, inside, right, rfl, -, closes, -⟩ := mem_quotedExpr.1 mem
    intro s here
    rw [← List.cons_append, List.getLast?_concat] at here
    cases here
    exact closes
  intro s here
  obtain mem | mem | mem := mem_literal.1 mem
  · rw [expr_quotedText] at mem
    simp [quoted mem s here, trailing, signs]
  · rw [expr_quotedPattern] at mem
    simp [quoted mem s here, trailing, signs]
  · have other := (contains_bareSet s).1 ((mem_bare.1 mem).2 s (List.mem_of_getLast? here))
    simp [trailing, signs] at other ⊢
    omega

theorem endsOff_group : EndsOff (trailing ++ signs) group := by
  intro w mem s here
  obtain ⟨left, before, middle, after, right, rfl, -, -, -, -, closes⟩ := (mem_enclosed legal_group).1 mem
  have last : left :: (before ++ (middle ++ (after ++ [right]))) =
      (left :: (before ++ (middle ++ after))) ++ [right] := by simp
  rw [last, List.getLast?_concat] at here
  cases here
  simp [closes, trailing, signs]

theorem mem_atom : w ∈ atom.expr.language ↔ w ∈ group.expr.language ∨ w ∈ literal.expr.language := by
  rw [atom, mem_oneOf legal_atom (by simp)]
  simp

theorem endsOff_atom : EndsOff (trailing ++ signs) atom := fun w mem =>
  (mem_atom.1 mem).elim (endsOff_group w) (endsOff_literal w)

/-- A token is an atom and a suffix, which may be left out. -/
theorem mem_token : w ∈ token.expr.language ↔
    ∃ a ∈ atom.expr.language, ∃ sign ∈ optSuffix.expr.language, w = a ++ sign := by
  rw [token, mem_seq legal_token, ← mem_language_entries]
  exact mem_language_two

/-- Suffixes are made of signs. -/
theorem code_mem_signs (mem : w ∈ optSuffix.expr.language) : ∀ s ∈ w, s.code ∈ signs := by
  obtain rfl | mem := mem_optSuffix.1 mem
  · nofun
  · obtain ⟨sign, here, codes⟩ := mem_suffix.1 mem
    have all : ∀ sign ∈ suffixes, ∀ code ∈ sign.map UInt8.toNat, code ∈ signs := by decide
    exact fun s mem => all sign here _ (codes ▸ List.mem_map_of_mem mem)

theorem endsOff_token : EndsOff trailing token := by
  intro w mem
  obtain ⟨a, first, sign, second, rfl⟩ := mem_token.1 mem
  obtain rfl | full := eq_or_ne sign []
  · rw [List.append_nil]
    exact fun s here off => endsOff_atom a first s here (List.mem_append_left _ off)
  · rw [getLast?_append_of_ne_nil full]
    intro s here off
    have isSign := code_mem_signs second s (List.mem_of_getLast? here)
    simp [trailing, signs] at off isSign
    omega

theorem endsOff_innerToken : EndsOff trailing innerToken := fun w mem =>
  endsOff_token w (includes_token w mem)

theorem endsOff_listOf {t sep : Rule} (legal : Legal (seq [item t, item (many [item sep, item t])]))
    (apart : Apart t) (ends : EndsOff codes t) :
    EndsOff codes (seq [item t, item (many [item sep, item t])]) := by
  intro w mem
  obtain ⟨first, pieces, rfl, one, all⟩ := (mem_listOf legal).1 mem
  obtain rfl | ⟨init, ⟨gap, word⟩, rfl⟩ := List.eq_nil_or_concat' pieces
  · rw [joined, List.flatMap_nil, List.append_nil]
    exact ends first one
  · have last := (all (gap, word) (by simp)).2
    obtain ⟨s, more, rfl, -⟩ := apart word last
    have split : first ++ joined (init ++ [(gap, s :: more)]) =
        (first ++ (joined init ++ gap)) ++ (s :: more) := by simp [joined]
    rw [split, getLast?_append_of_ne_nil (by simp)]
    exact ends _ last

theorem endsOff_sequence : EndsOff trailing (sequenceOf innerToken) :=
  endsOff_listOf legal_sequence apart_innerToken endsOff_innerToken

theorem endsOff_alternatives : EndsOff trailing (alternativesOf innerToken) :=
  endsOff_listOf (legal_of_modest modest_alternatives (by decide)) apart_innerToken endsOff_innerToken

end

/-! ### The parts of tokens and groups -/

section

variable {source : Bytes} {t child : Tree} {a sign w : List Scalar}

theorem avoids_atom : Avoids 10 atom :=
  avoids_token.entry (e := ⟨"atom", atom⟩) (List.mem_cons_self ..)

theorem avoids_group : Avoids 10 group :=
  avoids_atom.entry (e := ⟨"group", group⟩) (List.mem_cons_self ..)

theorem isFree_token : token.expr.isFree = true := legal_token.isFree avoids_token

/-- The atom and the suffix of a token are what it is made of. -/
theorem parts_token (mem : t ∈ token.nodes source) (first : a ∈ atom.expr.language)
    (second : sign ∈ optSuffix.expr.language) (eq : t.text.scalars = a ++ sign) :
    ∃ inner suffix_, t.child? "atom" = some inner ∧ inner.text.scalars = a ∧ Grown atom inner ∧
      t.child? "suffix" = some suffix_ ∧ suffix_.text.scalars = sign := by
  have unique {a' sign' : List Scalar} (first' : a' ∈ atom.expr.language)
      (second' : sign' ∈ optSuffix.expr.language) (eq' : t.text.scalars = a' ++ sign') :
      a' = a ∧ sign' = sign :=
    cut_unique (p := fun s => s.code ∈ signs) (eq'.symm.trans eq)
      (fun s here off => endsOff_atom a' first' s here (List.mem_append_right _ off))
      (code_mem_signs second')
      (fun s here off => endsOff_atom a first s here (List.mem_append_right _ off))
      (code_mem_signs second)
  obtain ⟨inner, ⟨u, mem_u, v, mem_v, split⟩, own, named, grown⟩ :=
    between_of_mem [] ⟨"atom", atom⟩ [⟨"suffix", optional suffix⟩]
      legal_token isFree_token (by decide) (by decide) mem
  obtain ⟨suffix_, ⟨u', mem_u', v', mem_v', split'⟩, own', named', -⟩ :=
    between_of_mem [⟨"atom", atom⟩] ⟨"suffix", optional suffix⟩ []
      legal_token isFree_token (by decide) (by decide) mem
  cases mem_language_nil.1 mem_u
  cases mem_language_nil.1 mem_v'
  rw [List.append_nil] at split'
  obtain ⟨same, -⟩ := unique own (mem_language_one.1 mem_v) split
  obtain ⟨-, same'⟩ := unique (mem_language_one.1 mem_u') own' split'
  exact ⟨inner, suffix_, named, same, grown, named', same'⟩

/-- What a group holds stands between the parentheses and the blanks next to them. -/
theorem parts_group (grown : Grown group t) {left right : Scalar} {before middle after : List Scalar}
    (eq : t.text.scalars = left :: (before ++ (middle ++ (after ++ [right])))) (opens : left.code = 40)
    (first : ∀ s ∈ before, IsSpace s) (inside : middle ∈ (alternativesOf innerToken).expr.language)
    (last : ∀ s ∈ after, IsSpace s) (closes : right.code = 41) :
    ∃ inner, t.child? "alternatives" = some inner ∧ inner.text.scalars = middle := by
  rw [← language_alternatives] at inside
  have mem : t.text.scalars ∈ group.expr.language :=
    (mem_enclosed legal_group).2 ⟨left, before, middle, after, right, eq, opens, first, inside, last, closes⟩
  have free := legal_group.isFree avoids_group
  obtain ⟨span, offset, c, found, node, name, whole, rfl⟩ :=
    Grown.whole legal_group free (by simp [group, seq, kind]) grown mem
  obtain ⟨inner, ⟨u, mem_u, v, mem_v, split⟩, own, named, -⟩ :=
    between_of_whole [item (text "("), item optSpace]
      ⟨"alternatives", leaf (alternativesOf innerToken)⟩ [item optSpace, item (text ")")]
      legal_group free (by decide) (by decide) whole name
  obtain ⟨_, left_mem, before', mem_before, rfl⟩ := mem_language_two.1 mem_u
  obtain ⟨after', mem_after, _, right_mem, rfl⟩ := mem_language_two.1 mem_v
  obtain ⟨left', rfl, -⟩ := exists_of_mem_text 40 (by decide) (by decide) left_mem
  obtain ⟨right', rfl, -⟩ := exists_of_mem_text 41 (by decide) (by decide) right_mem
  refine ⟨inner, named, ?_⟩
  have whole : left' :: ((before' ++ (inner.text.scalars ++ after')) ++ [right']) =
      left :: ((before ++ (middle ++ after)) ++ [right]) := by
    simpa using split.symm.trans eq
  have start {w x : List Scalar} (mem : w ∈ (leaf (alternativesOf innerToken)).expr.language) :
      ∀ s ∈ (w ++ x).head?, ¬ IsSpace s := by
    obtain ⟨s, more, rfl, other⟩ := apart_alternatives w mem
    rintro _ ⟨⟩
    exact not_isSpace_of_stops other
  have finish {w : List Scalar} (mem : w ∈ (leaf (alternativesOf innerToken)).expr.language) :
      ∀ s ∈ w.getLast?, ¬ IsSpace s := by
    rintro s here blank
    refine endsOff_alternatives w (language_alternatives ▸ mem) s here ?_
    obtain code | code := blank <;> simp [trailing, code]
  have inner_eq := (List.append_inj' (List.cons.inj whole).2 rfl).1
  obtain ⟨-, rest⟩ := cut_unique_front inner_eq (mem_optSpace.1 mem_before) (start own) first
    (start inside)
  exact (cut_unique rest (finish own) (mem_optSpace.1 mem_after) (finish inside) last).1

/-- The sequence of an alternative is what stands before the bar. -/
theorem parts_alternative (mem : t ∈ alternative.nodes source) {row bar : List Scalar}
    (first : row ∈ (sequenceOf innerToken).expr.language) (second : ∀ s ∈ bar, s.code ∈ trailing)
    (eq : t.text.scalars = row ++ bar) :
    ∃ inner, t.child? "sequence" = some inner ∧ inner.text.scalars = row := by
  obtain ⟨inner, ⟨u, mem_u, v, mem_v, split⟩, own, named, -⟩ :=
    between_of_mem [] ⟨"sequence", leaf (sequenceOf innerToken)⟩
      [item optSpace, item (optional (text "|")), item optSpace] legal_alternative
      (legal_alternative.isFree avoids_alternative) (by decide) (by decide) mem
  cases mem_language_nil.1 mem_u
  rw [List.nil_append] at split
  have own' : inner.text.scalars ∈ (sequenceOf innerToken).expr.language := language_sequence ▸ own
  have marks : ∀ s ∈ v, s.code ∈ trailing := by
    obtain ⟨pieces, all, rfl⟩ := mem_language_entries.1 mem_v
    obtain ⟨before, _, first, all₁, rfl⟩ := List.forall₂_cons_right_iff.1 all
    obtain ⟨bar, _, second, all₂, rfl⟩ := List.forall₂_cons_right_iff.1 all₁
    obtain ⟨after, _, third, none, rfl⟩ := List.forall₂_cons_right_iff.1 all₂
    cases none
    have blank {w : List Scalar} (mem : w ∈ optSpace.expr.language) : ∀ s ∈ w, s.code ∈ trailing := by
      intro s here
      obtain code | code := mem_optSpace.1 mem s here <;> simp [trailing, code]
    have mark : ∀ s ∈ bar, s.code ∈ trailing := by
      obtain rfl | mem := (mem_optional legal_bar).1 second
      · nofun
      · obtain ⟨s, rfl, code⟩ := exists_of_mem_text 124 (by decide) (by decide) mem
        simp [trailing, code]
    simpa [or_imp, forall_and] using ⟨blank first, mark, blank third⟩
  refine ⟨inner, named, (cut_unique (p := fun s => s.code ∈ trailing) (split.symm.trans eq) ?_ marks ?_
    second).1⟩
  · exact fun s here => endsOff_sequence _ own' s here
  · exact fun s here => endsOff_sequence _ first s here

/-- A group is no literal, because it starts with a parenthesis. -/
theorem not_mem_literal (mem : w ∈ group.expr.language) : w ∉ literal.expr.language := by
  intro other
  obtain ⟨s, more, rfl, code⟩ := opens_enclosed (e := ⟨"alternatives", _⟩) legal_group w mem
  obtain ⟨x, xs, eq, kind⟩ := mem_literal_head other
  cases eq
  obtain ⟨-, code'⟩ | ⟨-, code'⟩ | ⟨-, on⟩ := kind
  · omega
  · omega
  · exact (contains_bareSet s).1 on (by simp [code])

/-- An atom that is the text of a group is a group. -/
theorem group_of_atom (grown : Grown atom t) (mem : t.text.scalars ∈ group.expr.language) :
    ∃ inner, t.child? "group" = some inner ∧ inner.text = t.text ∧ Grown group inner := by
  obtain ⟨e, entry, child, only, named, grown', text_eq, own⟩ := part_of_oneOf legal_atom avoids_atom (by simp)
    (by decide) grown (mem_atom.2 (.inl mem))
  simp only [List.mem_cons, List.not_mem_nil, or_false] at entry
  obtain rfl | rfl := entry
  · exact ⟨child, by simp [Tree.child?, only, named], text_eq, grown'⟩
  · exact absurd own (not_mem_literal mem)

/-- An atom that is the text of a literal is a literal. -/
theorem literal_of_atom (grown : Grown atom t) (mem : t.text.scalars ∈ literal.expr.language) :
    t.child? "group" = none ∧
      ∃ inner, t.child? "literal" = some inner ∧ inner.text = t.text ∧ Grown literal inner := by
  obtain ⟨e, entry, child, only, named, grown', text_eq, own⟩ := part_of_oneOf legal_atom avoids_atom (by simp)
    (by decide) grown (mem_atom.2 (.inr mem))
  simp only [List.mem_cons, List.not_mem_nil, or_false] at entry
  obtain rfl | rfl := entry
  · exact absurd mem (not_mem_literal own)
  · have other : ("literal" : Bytes) ≠ "group" := by decide
    exact ⟨by simp [Tree.child?, only, named, other], child, by simp [Tree.child?, only, named], text_eq, grown'⟩

end

end Bootstrap

end Rulebook

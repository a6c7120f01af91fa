import Rulebook.Proofs.Definition.Depth
import Rulebook.Proofs.Rule.Literal

/-!
# What the rules of the grammar take first

A token ends where a blank, a bar or a closing parenthesis follows, and it starts with none of them. So
where a token is followed by one of them, the rule for tokens takes it whole and nothing else
(`Bootstrap.apart_delimited_tokenAt`), however deep the groups in it nest; and a list of tokens is taken whole up to
what ends it.
-/

namespace Rulebook

open Pattern Bytes

namespace Bootstrap

open Rule

/-! ### Combinations -/

/-- True of texts that the rules of entries take one after another, each where the others follow. -/
inductive Munched : List (Entry Rule) → List (List Scalar) → List Scalar → Prop where
  | nil {rest} : Munched [] [] rest
  | cons {e entries w ws rest} : e.rule.expr.Munches w (ws.flatten ++ rest) →
      Munched entries ws rest → Munched (e :: entries) (w :: ws) rest

section

variable {r : Rule} {how : Combinator} {entries before after : List (Entry Rule)} {e : Entry Rule}
  {w w' rest : List Scalar} {h c : Nat}

theorem ends_exprOf (e : Entry Rule) : (exprOf e).ends = e.rule.expr.ends := by
  unfold exprOf entryExpr
  split <;> rfl

theorem munches_exprOf : (exprOf e).Munches w rest ↔ e.rule.expr.Munches w rest := by
  simp only [Expr.Munches, ends_exprOf]

theorem refuses_exprOf : (exprOf e).Refuses rest ↔ e.rule.expr.Refuses rest := by
  simp only [Expr.Refuses, ends_exprOf]

theorem Munched.concat {ws : List (List Scalar)} (munched : Munched entries ws rest) :
    (Expr.concat (entries.map exprOf)).Munches ws.flatten rest := by
  induction munched with
  | nil => exact Expr.munches_empty _
  | cons here _ ih => exact Expr.munches_concat_cons (munches_exprOf.2 here) ih

theorem Legal.munches_iff (legal : Legal (.combine tag how entries)) :
    (Rule.combine tag how entries).expr.Munches w rest ↔
      (how.repeats (.group 0 [] (how.joins (entries.map exprOf)))).Munches w rest :=
  (legal.sound.regroups_combine legal.read legal.texts).munches_iff

theorem munches_seq (legal : Legal (seq entries)) {ws : List (List Scalar)}
    (munched : Munched entries ws rest) : (seq entries).expr.Munches ws.flatten rest :=
  legal.munches_iff.2 munched.concat

theorem munches_oneOf (before : List (Entry Rule)) (e : Entry Rule) (legal : Legal (oneOf (before ++ e :: after)))
    (refused : ∀ b ∈ before, b.rule.expr.Refuses (w ++ rest))
    (munched : e.rule.expr.Munches w rest) :
    (oneOf (before ++ e :: after)).expr.Munches w rest := by
  have chosen : (Expr.choice (before.map exprOf ++ exprOf e :: after.map exprOf)).Munches w rest := by
    refine Expr.munches_choice (fun b mem => ?_) (munches_exprOf.2 munched)
    obtain ⟨d, here, rfl⟩ := List.mem_map.1 mem
    exact refuses_exprOf.2 (refused d here)
  refine legal.munches_iff.2 ?_
  simpa [Combinator.joins, Combinator.repeats] using chosen

theorem munches_optional (legal : Legal (optional r)) (munched : r.expr.Munches w rest) :
    (optional r).expr.Munches w rest :=
  legal.munches_iff.2 (Expr.Munches.opt munched)

theorem munches_optional_nil (legal : Legal (optional r)) (refused : r.expr.Refuses rest) :
    (optional r).expr.Munches [] rest :=
  legal.munches_iff.2 (Expr.Refuses.opt refused)

/-- A repetition goes on as long as its entries take something. -/
theorem munches_many (legal : Legal (many entries))
    (full : (Expr.concat (entries.map exprOf)).nullable = false) {pieces : List (List Scalar)}
    (repeats : (Expr.concat (entries.map exprOf)).Repeats rest pieces) :
    (many entries).expr.Munches pieces.flatten rest :=
  legal.munches_iff.2 (repeats.star full)

theorem munches_leaf (modest : Modest (.combine tag how entries) h c) (fits : h < maxHeight) :
    (leaf (.combine tag how entries)).expr.Munches w rest ↔
      (Rule.combine tag how entries).expr.Munches w rest := by
  obtain ⟨x, shape, p, read, -⟩ := modest.whole fits
  rw [leaf, modest.plain.expr_asLeaf modest.unnamed modest.sound.even read.read]
  simp only [Expr.Munches, Expr.ends_nameless]

end

/-! ### Texts and blanks -/

section

variable {literal : Bytes} {w rest : List Scalar}

theorem munches_text (ascii : ∀ b ∈ literal, b < 0x80)
    (codes : w.map Scalar.code = literal.map UInt8.toNat) : (text literal).expr.Munches w rest :=
  (isText_textExpr literal).takes (codes.trans (codes_ascii ascii).symm)

theorem refuses_text (ascii : ∀ b ∈ literal, b < 0x80)
    (differs : ¬ literal.map UInt8.toNat <+: rest.map Scalar.code) :
    (text literal).expr.Refuses rest := by
  refine (isText_textExpr literal).refuses fun w more codes split => differs ?_
  rw [← split, List.map_append, codes, codes_ascii ascii]
  exact List.prefix_append ..

/-- True of a blank. -/
def IsSpace (s : Scalar) : Prop := s.code = 9 ∨ s.code = 32

theorem expr_blank : blank.expr = .one ⟨[(9, 9), (32, 32)]⟩ := (simple_of_getElem 0 rfl).expr_eq tag

theorem contains_blank (s : Scalar) :
    CharSet.contains ⟨[(9, 9), (32, 32)]⟩ s.code = true ↔ IsSpace s := by
  simp [CharSet.contains, IsSpace]
  omega

theorem concat_blank : Expr.concat ([item blank].map exprOf) = .one ⟨[(9, 9), (32, 32)]⟩ := expr_blank

theorem full_blank : (Expr.concat ([item blank].map exprOf)).nullable = false := by
  rw [concat_blank]
  rfl

theorem repeats_blank (blanks : ∀ s ∈ w, IsSpace s) (stop : ∀ s ∈ rest.head?, ¬ IsSpace s) :
    (Expr.concat ([item blank].map exprOf)).Repeats rest (w.map fun s => [s]) := by
  rw [concat_blank]
  refine Expr.repeats_one (fun s mem => (contains_blank s).2 (blanks s mem)) fun s mem => ?_
  exact Bool.eq_false_iff.2 fun on => stop s mem ((contains_blank s).1 on)

theorem munches_optSpace (blanks : ∀ s ∈ w, IsSpace s) (stop : ∀ s ∈ rest.head?, ¬ IsSpace s) :
    optSpace.expr.Munches w rest := by
  have munched := munches_many legal_optSpace full_blank (repeats_blank blanks stop)
  rwa [← List.flatMap_def, List.flatMap_singleton'] at munched

theorem munches_space {s : Scalar} (blanks : ∀ x ∈ s :: w, IsSpace x)
    (stop : ∀ s ∈ rest.head?, ¬ IsSpace s) : space.expr.Munches (s :: w) rest := by
  obtain ⟨here, others⟩ := List.forall_mem_cons.1 blanks
  have legal : Legal space := legal_of_modest modest_space (by decide)
  have more := (repeats_blank others stop).star full_blank
  rw [← List.flatMap_def, List.flatMap_singleton'] at more
  have first : (Expr.concat ([item blank].map exprOf)).Munches [s] (w ++ rest) := by
    rw [concat_blank]
    exact Expr.munches_one ((contains_blank s).2 here)
  exact legal.munches_iff.2 (Expr.Munches.plus (e := .group 0 [] _) first more)

theorem mem_plus_one {set : CharSet} : w ∈ (Expr.plus true (.one set)).language ↔
    w ≠ [] ∧ ∀ s ∈ w, set.contains s.code = true := by
  refine mem_multiples.trans ?_
  constructor
  · rintro ⟨pieces, some_piece, rfl, all⟩
    refine ⟨fun none => ?_, flatten_singletons all⟩
    obtain ⟨piece, mem⟩ := List.exists_mem_of_length_pos some_piece
    obtain ⟨s, rfl, -⟩ := all piece mem
    cases List.flatten_eq_nil_iff.1 none _ mem
  · rintro ⟨some_char, all⟩
    obtain ⟨pieces, rfl, each⟩ := exists_singletons all
    refine ⟨pieces, List.length_pos_iff.2 fun none => some_char ?_, rfl, each⟩
    rw [none, List.flatten_nil]

theorem mem_space : w ∈ space.expr.language ↔ w ≠ [] ∧ ∀ s ∈ w, IsSpace s := by
  have legal : Legal space := legal_of_modest modest_space (by decide)
  have same := (legal.sound.regroups_combine legal.read legal.texts).language_eq
  have one : (Combinator.joins (.oneOrMore false) ([item blank].map exprOf)) =
    .one ⟨[(9, 9), (32, 32)]⟩ := expr_blank
  rw [space, same, one]
  refine mem_plus_one.trans (and_congr_right fun _ => ?_)
  exact forall₂_congr fun s _ => contains_blank s

end

/-! ### Literals -/

section

variable {w rest : List Scalar} {mark : Nat} {set : CharSet}

/-- What may stand inside of quotes is taken up to the end of the quotes. -/
theorem repeats_inside (plain : IsInside mark set) (other : mark ≠ 92) {pieces : List (List Scalar)}
    (all : ∀ piece ∈ pieces, piece ∈ (insideExpr set).language) {right : Scalar}
    (closes : right.code = mark) : (insideExpr set).Repeats (right :: rest) pieces := by
  have off {s : Scalar} (code : s.code = mark ∨ s.code = 92) : set.contains s.code = false :=
    Bool.eq_false_iff.2 fun on => by
      have := (plain s).1 on
      omega
  induction pieces with
  | nil =>
    have escape : (CharSet.single 92).contains right.code = false :=
      Bool.eq_false_iff.2 fun on => other (closes ▸ CharSet.contains_single.1 on)
    exact .nil ((Expr.refuses_one (off (.inl closes))).alt (Expr.refuses_one escape).cat)
  | cons piece pieces ih =>
    obtain ⟨here, others⟩ := List.forall_mem_cons.1 all
    refine .cons ?_ (ih others)
    obtain ⟨s, rfl, on⟩ | ⟨s, s', rfl, code, known⟩ := mem_insideExpr.1 here
    · exact (Expr.munches_one on).left
    · refine .right (Expr.refuses_one (off (.inr code))) ?_
      have backslash : (Expr.one (.single 92)).Munches [s] ([s'] ++ (pieces.flatten ++ right :: rest)) :=
        Expr.munches_one (CharSet.contains_single.2 code)
      exact backslash.cat (Expr.munches_one ((contains_notBreak s').2 known))

theorem munches_quoted (plain : IsInside mark set) (other : mark ≠ 92)
    (mem : w ∈ (quotedExpr mark set).language) : (quotedExpr mark set).Munches w rest := by
  obtain ⟨left, inside, right, rfl, opens, closes, mem⟩ := mem_quotedExpr.1 mem
  obtain ⟨pieces, -, rfl, all⟩ := mem_multiples.1 mem
  have middle : (Expr.star true (insideExpr set)).Munches pieces.flatten ([right] ++ rest) :=
    (repeats_inside plain other all closes).star rfl
  exact (Expr.munches_one (CharSet.contains_single.2 opens)).cat (w := [left])
    (middle.cat (Expr.munches_one (CharSet.contains_single.2 closes)))

/-- Quotes are refused where there are none. -/
theorem refuses_quoted (other : ∀ s ∈ rest.head?, s.code ≠ mark) :
    (quotedExpr mark set).Refuses rest := by
  cases rest with
  | nil => exact Expr.refuses_one_nil.cat
  | cons s rest =>
    exact (Expr.refuses_one (Bool.eq_false_iff.2 fun on =>
      other s rfl (CharSet.contains_single.1 on))).cat

theorem expr_quotedText : quotedText.expr = quotedExpr 34
    ⟨[(0, 9), (11, 12), (14, 33), (35, 91), (93, 1114111)]⟩ := (simple_of_getElem 5 rfl).expr_eq tag

theorem expr_quotedPattern : quotedPattern.expr = quotedExpr 39
    ⟨[(0, 9), (11, 12), (14, 38), (40, 91), (93, 1114111)]⟩ := (simple_of_getElem 6 rfl).expr_eq tag

/-- The characters of texts without quotes. -/
def bareSet : CharSet :=
  ⟨[(0, 8), (11, 11), (14, 31), (33, 33), (35, 38), (44, 58), (60, 62), (64, 123), (125, 1114111)]⟩

theorem expr_bare : bare.expr = .plus true (.one bareSet) := (simple_of_getElem 7 rfl).expr_eq tag

theorem contains_bareSet (s : Scalar) : bareSet.contains s.code = true ↔
    s.code ∉ [9, 10, 12, 13, 32, 34, 39, 40, 41, 42, 43, 59, 63, 124] := by
  have high := code_lt s
  simp [bareSet, CharSet.contains]
  omega

theorem mem_bare : w ∈ bare.expr.language ↔ w ≠ [] ∧ ∀ s ∈ w, bareSet.contains s.code = true := by
  rw [expr_bare]
  exact mem_plus_one

theorem munches_bare (mem : w ∈ bare.expr.language)
    (stop : ∀ s ∈ rest.head?, bareSet.contains s.code = false) : bare.expr.Munches w rest := by
  obtain ⟨some_char, all⟩ := mem_bare.1 mem
  obtain ⟨s, w, rfl⟩ := List.exists_cons_of_ne_nil some_char
  obtain ⟨here, others⟩ := List.forall_mem_cons.1 all
  have more := (Expr.repeats_one others stop).star rfl
  rw [← List.flatMap_def, List.flatMap_singleton'] at more
  rw [expr_bare]
  exact (Expr.munches_one here).plus more

/-! ### Where tokens end -/

/-- The code points that may follow a token and that no token starts with: blanks, `)` and `|`. -/
def stops : List Nat := [9, 32, 41, 124]

/-- The code points of suffixes. -/
def signs : List Nat := [42, 43, 63]

/-- True of a rule that takes all of a text wherever one of certain characters follows. -/
def Delimited (after : List Nat) (r : Rule) : Prop :=
  ∀ w ∈ r.expr.language, ∀ rest : List Scalar, (∀ s ∈ rest.head?, s.code ∈ after) →
    r.expr.Munches w rest

/-- True of a rule whose texts start with a character that cannot follow a token. -/
def Apart (r : Rule) : Prop := ∀ w ∈ r.expr.language, ∃ s more, w = s :: more ∧ s.code ∉ stops

theorem refuses_of_apart {r : Rule} (free : r.expr.isFree = true) (apart : Apart r)
    (stop : ∀ s ∈ rest.head?, s.code ∈ stops) : r.expr.Refuses rest := by
  refine Expr.refuses_of_language free fun w mem more split => ?_
  obtain ⟨s, others, rfl, other⟩ := apart w mem
  exact other (stop s (by rw [← split]; rfl))

theorem mem_literal : w ∈ literal.expr.language ↔ w ∈ quotedText.expr.language ∨
    w ∈ quotedPattern.expr.language ∨ w ∈ bare.expr.language := by
  rw [literal, mem_oneOf legal_literal (by simp)]
  simp

/-- What each kind of literal starts with. -/
theorem mem_literal_head (mem : w ∈ literal.expr.language) :
    ∃ s more, w = s :: more ∧
      ((w ∈ quotedText.expr.language ∧ s.code = 34) ∨ (w ∈ quotedPattern.expr.language ∧ s.code = 39) ∨
        (w ∈ bare.expr.language ∧ bareSet.contains s.code = true)) := by
  obtain mem | mem | mem := mem_literal.1 mem
  · have quoted := mem
    rw [expr_quotedText] at quoted
    obtain ⟨left, inside, right, rfl, opens, -⟩ := mem_quotedExpr.1 quoted
    exact ⟨left, _, rfl, .inl ⟨mem, opens⟩⟩
  · have quoted := mem
    rw [expr_quotedPattern] at quoted
    obtain ⟨left, inside, right, rfl, opens, -⟩ := mem_quotedExpr.1 quoted
    exact ⟨left, _, rfl, .inr (.inl ⟨mem, opens⟩)⟩
  · obtain ⟨some_char, all⟩ := mem_bare.1 mem
    obtain ⟨s, more, rfl⟩ := List.exists_cons_of_ne_nil some_char
    exact ⟨s, more, rfl, .inr (.inr ⟨mem, all s (List.mem_cons_self ..)⟩)⟩

theorem apart_literal : Apart literal := by
  intro w mem
  obtain ⟨s, more, rfl, kind⟩ := mem_literal_head mem
  refine ⟨s, more, rfl, fun stop => ?_⟩
  obtain ⟨-, code⟩ | ⟨-, code⟩ | ⟨-, on⟩ := kind
  · simp [stops, code] at stop
  · simp [stops, code] at stop
  · refine (contains_bareSet s).1 on ?_
    simp [stops] at stop ⊢
    omega

/-- A literal ends where a character follows that no bare text holds. -/
theorem delimited_literal : Delimited (stops ++ signs) literal := by
  intro w mem rest stop
  have refused {mark : Nat} {set : CharSet} {s : Scalar} {more : List Scalar}
      (other : s.code ≠ mark) : (quotedExpr mark set).Refuses (s :: more ++ rest) :=
    refuses_quoted fun x here => by
      cases here
      exact other
  obtain ⟨s, more, rfl, ⟨mem, -⟩ | ⟨mem, code⟩ | ⟨mem, on⟩⟩ := mem_literal_head mem
  · refine munches_oneOf [] ⟨"text", quotedText⟩ legal_literal nofun ?_
    rw [expr_quotedText] at mem ⊢
    exact munches_quoted isInside_text (by decide) mem
  · refine munches_oneOf [⟨"text", quotedText⟩] ⟨"pattern", quotedPattern⟩
      legal_literal (List.forall_mem_singleton.2 ?_) ?_
    · rw [expr_quotedText]
      exact refused (by omega)
    · rw [expr_quotedPattern] at mem ⊢
      exact munches_quoted isInside_pattern (by decide) mem
  · have other := (contains_bareSet s).1 on
    simp only [List.mem_cons, List.not_mem_nil, or_false, not_or] at other
    refine munches_oneOf [⟨"text", quotedText⟩, ⟨"pattern", quotedPattern⟩]
      ⟨"bare", bare⟩ legal_literal ?_ ?_
    · simp only [List.forall_mem_cons, expr_quotedText, expr_quotedPattern]
      exact ⟨refused (by omega), refused (by omega), nofun⟩
    · refine munches_bare mem fun s here => Bool.eq_false_iff.2 fun on => ?_
      have code := stop s here
      refine (contains_bareSet s).1 on ?_
      simp [stops, signs] at code ⊢
      omega

/-! ### Suffixes -/

/-- The suffixes, in the order in which they are tried. -/
def suffixes : List Bytes := ["*?", "+?", "?", "*", "+"]

theorem legal_suffix : Legal suffix := legal_of_modest modest_suffix (by decide)

theorem ascii_suffixes : ∀ sign ∈ suffixes, ∀ b ∈ sign, b < 0x80 := by decide

theorem mem_suffix :
    w ∈ suffix.expr.language ↔ ∃ sign ∈ suffixes, w.map Scalar.code = sign.map UInt8.toNat := by
  have same : suffix = oneOf (suffixes.map fun sign => item (text sign)) := rfl
  rw [same, mem_oneOf (same ▸ legal_suffix) (by simp [suffixes])]
  simp only [List.mem_map, exists_exists_and_eq_and]
  refine exists_congr fun sign => and_congr_right fun mem => ?_
  exact mem_text.trans (by rw [codes_ascii (ascii_suffixes sign mem)])

/-- No suffix is the start of a later one with a character after it that ends a token. -/
theorem pairwise_suffixes : suffixes.Pairwise fun earlier sign => ∀ codes : List Nat,
    (∀ code ∈ codes.head?, code ∈ stops) →
      ¬ earlier.map UInt8.toNat <+: sign.map UInt8.toNat ++ codes := by
  have codes : suffixes.map (List.map UInt8.toNat) = [[42, 63], [43, 63], [63], [42], [43]] := by
    decide
  have apart : (suffixes.map (List.map UInt8.toNat)).Pairwise fun earlier sign =>
      ∀ codes : List Nat, (∀ code ∈ codes.head?, code ∈ stops) → ¬ earlier <+: sign ++ codes := by
    rw [codes]
    simp only [List.pairwise_cons, List.forall_mem_cons]
    simp [List.cons_prefix_cons]
    rintro codes stop ⟨more, rfl⟩
    simp [stops] at stop
  exact List.pairwise_map.1 apart

theorem head_suffix : ∀ sign ∈ suffixes, ∃ b more, sign = b :: more ∧ b.toNat ∈ signs := by
  have some_char : ∀ sign ∈ suffixes, sign ≠ [] ∧ ∀ b ∈ sign.head?, b.toNat ∈ signs := by decide
  intro sign mem
  obtain ⟨full, first⟩ := some_char sign mem
  obtain ⟨b, more, rfl⟩ := List.exists_cons_of_ne_nil full
  exact ⟨b, more, rfl, first b rfl⟩

theorem mem_suffix_head (mem : w ∈ suffix.expr.language) : ∃ s more, w = s :: more ∧ s.code ∈ signs := by
  obtain ⟨sign, here, codes⟩ := mem_suffix.1 mem
  obtain ⟨b, others, rfl, isSign⟩ := head_suffix sign here
  obtain ⟨s, w, rfl, code, -⟩ := List.map_eq_cons_iff.1 codes
  exact ⟨s, w, rfl, code ▸ isSign⟩

theorem delimited_suffix : Delimited stops suffix := by
  intro w mem rest stop
  obtain ⟨sign, here, codes⟩ := mem_suffix.1 mem
  obtain ⟨before, after, cut⟩ := List.append_of_mem here
  have same : suffix = oneOf (before.map (fun sign => item (text sign)) ++
      item (text sign) :: after.map fun sign => item (text sign)) := by
    rw [← List.map_cons (f := fun sign => item (text sign)), ← List.map_append, ← cut]
    rfl
  rw [same]
  refine munches_oneOf _ _ (same ▸ legal_suffix) (fun b mem => ?_)
    (munches_text (ascii_suffixes sign here) codes)
  obtain ⟨earlier, first, rfl⟩ := List.mem_map.1 mem
  refine refuses_text (ascii_suffixes earlier (cut ▸ List.mem_append_left _ first)) ?_
  rw [List.map_append, codes]
  have apart := (List.pairwise_append.1 (cut ▸ pairwise_suffixes)).2.2
  refine apart earlier first sign (List.mem_cons_self ..) _ fun code known => ?_
  rw [List.head?_map] at known
  obtain ⟨s, head, rfl⟩ := Option.map_eq_some_iff.1 known
  exact stop s head

theorem refuses_suffix (stop : ∀ s ∈ rest.head?, s.code ∈ stops) : suffix.expr.Refuses rest := by
  have avoids : Avoids 10 suffix := avoids_suffix
  refine Expr.refuses_of_language (legal_suffix.isFree avoids) fun w mem more split => ?_
  obtain ⟨s, others, rfl, isSign⟩ := mem_suffix_head mem
  have code := stop s (by rw [← split]; rfl)
  simp only [stops, signs, List.mem_cons, List.not_mem_nil, or_false] at code isSign
  omega

theorem mem_optional {r : Rule} (legal : Legal (optional r)) :
    w ∈ (optional r).expr.language ↔ w = [] ∨ w ∈ r.expr.language := by
  rw [optional, (legal.sound.regroups_combine legal.read legal.texts).language_eq]
  exact or_comm

theorem mem_optSuffix : w ∈ optSuffix.expr.language ↔ w = [] ∨ w ∈ suffix.expr.language :=
  mem_optional legal_optSuffix

theorem delimited_optSuffix : Delimited stops optSuffix := by
  intro w mem rest stop
  obtain rfl | mem := mem_optSuffix.1 mem
  · exact munches_optional_nil legal_optSuffix (refuses_suffix stop)
  · exact munches_optional legal_optSuffix (delimited_suffix w mem rest stop)

/-! ### Tokens -/

theorem head?_append_of_mem {after : List Nat} (mem : w ∈ optSuffix.expr.language)
    (stop : ∀ s ∈ rest.head?, s.code ∈ after) : ∀ s ∈ (w ++ rest).head?, s.code ∈ after ++ signs := by
  intro s here
  obtain rfl | mem := mem_optSuffix.1 mem
  · exact List.mem_append_left _ (stop s here)
  · obtain ⟨sign, more, rfl, isSign⟩ := mem_suffix_head mem
    cases here
    exact List.mem_append_right _ isSign

/-- A token is what it is made of, and what follows it does not belong to its suffix. -/
theorem delimited_suffixed {e d : Entry Rule} (legal : Legal (seq [e, d])) (isSuffix : d.rule = optSuffix)
    (delimited : Delimited (stops ++ signs) e.rule) : Delimited stops (seq [e, d]) := by
  intro w mem rest stop
  obtain ⟨pieces, all, rfl⟩ := (mem_seq legal).1 mem
  obtain ⟨atom, _, first, others, rfl⟩ := List.forall₂_cons_right_iff.1 all
  obtain ⟨sign, _, second, none, rfl⟩ := List.forall₂_cons_right_iff.1 others
  cases none
  rw [isSuffix] at second
  have follows := head?_append_of_mem second stop
  refine munches_seq legal (.cons ?_ (.cons ?_ .nil))
  · rw [List.flatten_singleton]
    exact delimited atom first _ follows
  · rw [isSuffix]
    exact delimited_optSuffix sign second rest stop

theorem apart_seq {e : Entry Rule} {entries : List (Entry Rule)} (legal : Legal (seq (e :: entries)))
    (apart : Apart e.rule) : Apart (seq (e :: entries)) := by
  intro w mem
  obtain ⟨pieces, all, rfl⟩ := (mem_seq legal).1 mem
  obtain ⟨first, others, here, -, rfl⟩ := List.forall₂_cons_right_iff.1 all
  obtain ⟨s, more, rfl, other⟩ := apart first here
  exact ⟨s, more ++ others.flatten, rfl, other⟩

theorem apart_oneOf {entries : List (Entry Rule)} (legal : Legal (oneOf entries)) (several : entries ≠ [])
    (apart : ∀ e ∈ entries, Apart e.rule) : Apart (oneOf entries) := by
  intro w mem
  obtain ⟨e, here, mem⟩ := (mem_oneOf legal several).1 mem
  exact apart e here w mem

theorem apart_parenthesis : Apart (text "(") := by
  intro w mem
  obtain ⟨s, rfl, code⟩ := exists_of_mem_text 40 (by decide) (by decide) mem
  exact ⟨s, [], rfl, by simp [stops, code]⟩

theorem apart_anyLiteral : Apart anyLiteral := by
  intro w mem
  rw [language_anyLiteral] at mem
  exact apart_literal w mem

theorem delimited_anyLiteral : Delimited (stops ++ signs) anyLiteral := by
  intro w mem rest stop
  rw [language_anyLiteral] at mem
  exact (munches_leaf modest_literal (by decide)).2 (delimited_literal w mem rest stop)

/-! ### Lists of tokens -/

/-- True of what may follow a list of tokens: blanks, and after them one of certain characters that are
    no blanks and that no token starts with, or nothing. -/
def Closes (after : List Nat) (rest : List Scalar) : Prop :=
  ∃ blanks more, rest = blanks ++ more ∧ (∀ s ∈ blanks, IsSpace s) ∧
    ∀ s ∈ more.head?, s.code ∈ after ∧ s.code ∈ [41, 124]

theorem head?_append_of_all {α : Type} {p : α → Prop} {xs ys : List α} (first : ∀ x ∈ xs, p x)
    (second : ∀ y ∈ ys.head?, p y) : ∀ x ∈ (xs ++ ys).head?, p x := by
  cases xs with
  | nil => exact second
  | cons x xs =>
    rintro _ ⟨⟩
    exact first x (List.mem_cons_self ..)

theorem Closes.stop {after : List Nat} (h : Closes after rest) : ∀ s ∈ rest.head?, s.code ∈ stops := by
  obtain ⟨blanks, more, rfl, all, stop⟩ := h
  refine head?_append_of_all (fun s mem => ?_) fun s here => ?_
  · have blank := all s mem
    simp only [IsSpace] at blank
    simp only [stops, List.mem_cons, List.not_mem_nil, or_false]
    omega
  · have code := (stop s here).2
    simp only [stops, List.mem_cons, List.not_mem_nil, or_false] at code ⊢
    omega

/-- Blanks at the start of blanks. -/
theorem cut_blanks {blanks more first others : List Scalar} (all : ∀ s ∈ first, IsSpace s)
    (stop : ∀ s ∈ more.head?, ¬ IsSpace s) (cut : first ++ others = blanks ++ more) :
    ∃ later, blanks = first ++ later ∧ others = later ++ more := by
  obtain ⟨later, eq, eq'⟩ | ⟨later, eq, eq'⟩ := List.append_eq_append_iff.1 cut
  · exact ⟨later, eq, eq'⟩
  · cases later with
    | nil => exact ⟨[], by simpa using eq.symm, by simpa using eq'.symm⟩
    | cons s later =>
      subst eq eq'
      exact absurd (all s (by simp)) (stop s rfl)

/-- What a separator of tokens is to a list: it is taken whole before a token, it starts with a character
    that ends a token, and where the list ends no token follows it. -/
structure Separates (after : List Nat) (sep : Rule) : Prop where
  munches : ∀ w ∈ sep.expr.language, ∀ s more, s.code ∉ stops → sep.expr.Munches w (s :: more)
  start : ∀ w ∈ sep.expr.language, ∃ s more, w = s :: more ∧ s.code ∈ stops
  closes : ∀ w ∈ sep.expr.language, ∀ more, Closes after (w ++ more) → ∀ s ∈ more.head?, s.code ∈ stops
  free : sep.expr.isFree = true

theorem mem_many {entries : List (Entry Rule)} (legal : Legal (many entries)) :
    w ∈ (many entries).expr.language ↔ ∃ pieces : List (List Scalar), w = pieces.flatten ∧
      ∀ piece ∈ pieces, piece ∈ (Expr.concat (entries.map exprOf)).language := by
  rw [many, (legal.sound.regroups_combine legal.read legal.texts).language_eq]
  refine mem_multiples.trans ?_
  simp [Combinator.joins]

section

variable {t sep : Rule} {after : List Nat}

/-- What the rest of a list starts with ends a token. -/
theorem head?_separated (separates : Separates after sep) {pieces : List (List Scalar)}
    (all : ∀ piece ∈ pieces, piece ∈ (Expr.cat sep.expr t.expr).language)
    (closes : Closes after rest) : ∀ s ∈ (pieces.flatten ++ rest).head?, s.code ∈ stops := by
  cases pieces with
  | nil => exact closes.stop
  | cons piece pieces =>
    obtain ⟨first, mem, second, -, rfl⟩ := all piece (List.mem_cons_self ..)
    obtain ⟨s, more, rfl, stop⟩ := separates.start first mem
    rintro _ ⟨⟩
    exact stop

theorem repeats_separated (free : t.expr.isFree = true) (apart : Apart t)
    (delimited : Delimited stops t) (separates : Separates after sep) {pieces : List (List Scalar)}
    (all : ∀ piece ∈ pieces, piece ∈ (Expr.cat sep.expr t.expr).language)
    (closes : Closes after rest) : (Expr.cat sep.expr t.expr).Repeats rest pieces := by
  induction pieces with
  | nil =>
    refine .nil (Expr.refuses_cat separates.free fun w mem more split => ?_)
    exact refuses_of_apart free apart (separates.closes w mem more (split ▸ closes))
  | cons piece pieces ih =>
    obtain ⟨here, others⟩ := List.forall_mem_cons.1 all
    refine .cons ?_ (ih others)
    obtain ⟨first, mem, second, mem', rfl⟩ := here
    obtain ⟨s, more, rfl, other⟩ := apart second mem'
    refine .cat (separates.munches first mem s _ other) (delimited _ mem' _ ?_)
    exact head?_separated separates others closes

theorem nullable_separated (free : t.expr.isFree = true) (apart : Apart t) :
    (Expr.cat sep.expr t.expr).nullable = false := by
  rw [Expr.nullable, Expr.nullable_eq_false free fun w mem none => ?_, Bool.and_false]
  obtain ⟨s, more, rfl, -⟩ := apart w mem
  cases none

/-- A list of tokens is taken whole up to where it ends. -/
theorem munches_listOf (legal : Legal (seq [item t, item (many [item sep, item t])]))
    (free : t.expr.isFree = true) (apart : Apart t) (delimited : Delimited stops t)
    (separates : Separates after sep)
    (mem : w ∈ (seq [item t, item (many [item sep, item t])]).expr.language)
    (closes : Closes after rest) :
    (seq [item t, item (many [item sep, item t])]).expr.Munches w rest := by
  have legal_many : Legal (many [item sep, item t]) := legal.entry (e := item (many _)) (by simp)
  obtain ⟨pieces, cuts, rfl⟩ := (mem_seq legal).1 mem
  obtain ⟨first, _, one, others, rfl⟩ := List.forall₂_cons_right_iff.1 cuts
  obtain ⟨later, _, more, none, rfl⟩ := List.forall₂_cons_right_iff.1 others
  cases none
  obtain ⟨pieces, rfl, all⟩ := (mem_many legal_many).1 more
  refine munches_seq legal (.cons ?_ (.cons ?_ .nil))
  · rw [List.flatten_singleton]
    exact delimited first one _ (head?_separated separates all closes)
  · exact munches_many legal_many (nullable_separated free apart)
      (repeats_separated free apart delimited separates all closes)

end

/-! ### Separators -/

theorem not_isSpace_of_stops {s : Scalar} (other : s.code ∉ stops) : ¬ IsSpace s := by
  rintro (code | code) <;> simp [stops, code] at other

theorem isFree_space : space.expr.isFree = true :=
  (legal_of_modest modest_space (by decide)).isFree (avoids_space (by decide))

theorem Closes.after {after : List Nat} {w more : List Scalar} (h : Closes after (w ++ more))
    (blanks : ∀ s ∈ w, IsSpace s) : Closes after more := by
  obtain ⟨spaces, others, cut, all, stop⟩ := h
  have other : ∀ s ∈ others.head?, ¬ IsSpace s := by
    intro s here blank
    have code := (stop s here).2
    obtain code' | code' := blank <;> simp [code'] at code
  obtain ⟨later, rfl, rfl⟩ := cut_blanks blanks other cut
  exact ⟨later, others, rfl, fun s mem => all s (List.mem_append_right _ mem), stop⟩

theorem separates_space (after : List Nat) : Separates after space where
  munches w mem s more other := by
    obtain ⟨some_char, blanks⟩ := mem_space.1 mem
    obtain ⟨first, w, rfl⟩ := List.exists_cons_of_ne_nil some_char
    refine munches_space blanks ?_
    rintro _ ⟨⟩
    exact not_isSpace_of_stops other
  start w mem := by
    obtain ⟨some_char, blanks⟩ := mem_space.1 mem
    obtain ⟨first, w, rfl⟩ := List.exists_cons_of_ne_nil some_char
    refine ⟨first, w, rfl, ?_⟩
    obtain code | code := blanks first (List.mem_cons_self ..) <;> simp [stops, code]
  closes w mem more h := (h.after (mem_space.1 mem).2).stop
  free := isFree_space

/-- A bar among blanks. -/
def barred : Rule := seq [item optSpace, item (text "|"), item optSpace]

theorem legal_separator : Legal separator := legal_of_modest modest_separator (by decide)

theorem legal_barred : Legal barred := legal_separator.entry (e := item barred) (List.mem_cons_self ..)

theorem mem_barred : w ∈ barred.expr.language ↔ ∃ before bar after, w = before ++ bar :: after ∧
    (∀ s ∈ before, IsSpace s) ∧ bar.code = 124 ∧ ∀ s ∈ after, IsSpace s := by
  rw [barred, mem_seq legal_barred]
  simp only [List.forall₂_cons_right_iff, List.forall₂_nil_right_iff]
  constructor
  · rintro ⟨_, ⟨before, _, first, ⟨bar, _, here, ⟨after, _, last, rfl, rfl⟩, rfl⟩, rfl⟩, rfl⟩
    obtain ⟨bar, rfl, code⟩ := exists_of_mem_text 124 (by decide) (by decide) here
    exact ⟨before, bar, after, by simp, mem_optSpace.1 first, code, mem_optSpace.1 last⟩
  · rintro ⟨before, bar, after, rfl, first, code, last⟩
    have here : [bar] ∈ (text "|").expr.language := mem_text.2 (by
      rw [List.map_singleton, code]
      decide)
    exact ⟨[before, [bar], after], ⟨before, _, mem_optSpace.2 first, ⟨[bar], _, here,
      ⟨after, _, mem_optSpace.2 last, rfl, rfl⟩, rfl⟩, rfl⟩, by simp⟩

/-- After blanks there is no bar where something else follows them. -/
theorem no_bar {blanks before more others : List Scalar} {bar : Scalar} (code : bar.code = 124)
    (first : ∀ s ∈ before, IsSpace s) (all : ∀ s ∈ blanks, IsSpace s)
    (stop : ∀ s ∈ more.head?, ¬ IsSpace s ∧ s.code ≠ 124) :
    before ++ bar :: others ≠ blanks ++ more := by
  intro cut
  obtain ⟨later, rfl, eq⟩ := cut_blanks first (fun s here => (stop s here).1) cut
  cases later with
  | nil => exact (stop bar (by rw [← List.nil_append more, ← eq]; rfl)).2 code
  | cons s later =>
    cases eq
    obtain blank | blank := all bar (by simp) <;> omega

theorem mem_separator : w ∈ separator.expr.language ↔
    w ∈ barred.expr.language ∨ w ∈ space.expr.language := by
  rw [separator, mem_oneOf legal_separator (by simp)]
  simp only [List.mem_cons, List.not_mem_nil, or_false, exists_eq_or_imp, exists_eq_left]
  exact Iff.rfl

theorem separates_separator : Separates [41] separator where
  munches w mem s more other := by
    have blank := not_isSpace_of_stops other
    obtain mem | mem := mem_separator.1 mem
    · refine munches_oneOf [] (item barred) legal_separator nofun ?_
      obtain ⟨before, bar, after, rfl, first, code, last⟩ := mem_barred.1 mem
      have munched : Munched [item optSpace, item (text "|"), item optSpace] [before, [bar], after]
          (s :: more) := by
        refine .cons (munches_optSpace first ?_) (.cons (munches_text (by decide) ?_)
          (.cons (munches_optSpace last ?_) .nil))
        · rintro _ ⟨⟩ (blank | blank) <;> omega
        · rw [List.map_singleton, code]
          decide
        · rintro _ ⟨⟩
          exact blank
      have whole := munches_seq legal_barred munched
      rwa [List.flatten_cons, List.flatten_cons, List.flatten_singleton] at whole
    · refine munches_oneOf [item barred] (item space) legal_separator
        (List.forall_mem_singleton.2 ?_) ((separates_space [41]).munches w mem s more other)
      have avoids : Avoids 10 barred := avoids_separator.entry (e := item barred) (List.mem_cons_self ..)
      refine Expr.refuses_of_language (legal_barred.isFree avoids) fun u mem' others cut => ?_
      obtain ⟨before, bar, after, rfl, first, code, -⟩ := mem_barred.1 mem'
      rw [List.append_assoc, List.cons_append] at cut
      refine no_bar code first (mem_space.1 mem).2 (fun x here => ?_) cut
      cases here
      exact ⟨blank, fun code => other (by simp [stops, code])⟩
  start w mem := by
    obtain mem | mem := mem_separator.1 mem
    · obtain ⟨before, bar, after, rfl, first, code, -⟩ := mem_barred.1 mem
      cases before with
      | nil => exact ⟨bar, after, rfl, by simp [stops, code]⟩
      | cons s before =>
        refine ⟨s, _, rfl, ?_⟩
        obtain code | code := first s (List.mem_cons_self ..) <;> simp [stops, code]
    · exact (separates_space [41]).start w mem
  closes w mem more h := by
    obtain mem | mem := mem_separator.1 mem
    · obtain ⟨before, bar, after, rfl, first, code, -⟩ := mem_barred.1 mem
      obtain ⟨blanks, others, cut, all, stop⟩ := h
      rw [List.append_assoc, List.cons_append] at cut
      refine absurd cut (no_bar code first all fun s here => ?_)
      have paren := List.mem_singleton.1 (stop s here).1
      exact ⟨by rintro (code | code) <;> omega, by omega⟩
    · exact (separates_space [41]).closes w mem more h
  free := legal_separator.isFree avoids_separator

/-! ### Groups -/

/-- What a group holds stands between parentheses, and blanks may stand around it. -/
theorem mem_enclosed {e : Entry Rule}
    (legal : Legal (seq [item (text "("), item optSpace, e, item optSpace, item (text ")")])) :
    w ∈ (seq [item (text "("), item optSpace, e, item optSpace, item (text ")")]).expr.language ↔
      ∃ (left : Scalar) (before middle after : List Scalar) (right : Scalar),
        w = left :: (before ++ (middle ++ (after ++ [right]))) ∧ left.code = 40 ∧
        (∀ s ∈ before, IsSpace s) ∧ middle ∈ e.rule.expr.language ∧
        (∀ s ∈ after, IsSpace s) ∧ right.code = 41 := by
  have mem_sign {s : Scalar} {sign : Bytes} {code : Nat} (ascii : ∀ b ∈ sign, b < 0x80)
      (one : sign.map UInt8.toNat = [code]) (eq : s.code = code) : [s] ∈ (text sign).expr.language := by
    rw [mem_text, codes_ascii ascii, one, List.map_singleton, eq]
  rw [mem_seq legal]
  simp only [List.forall₂_cons_right_iff, List.forall₂_nil_right_iff]
  constructor
  · rintro ⟨_, ⟨left, _, opens, ⟨before, _, first, ⟨middle, _, here, ⟨after, _, last,
      ⟨right, _, closes, rfl, rfl⟩, rfl⟩, rfl⟩, rfl⟩, rfl⟩, rfl⟩
    obtain ⟨left, rfl, left_code⟩ := exists_of_mem_text 40 (by decide) (by decide) opens
    obtain ⟨right, rfl, right_code⟩ := exists_of_mem_text 41 (by decide) (by decide) closes
    exact ⟨left, before, middle, after, right, by simp, left_code, mem_optSpace.1 first, here,
      mem_optSpace.1 last, right_code⟩
  · rintro ⟨left, before, middle, after, right, rfl, opens, first, here, last, closes⟩
    exact ⟨[[left], before, middle, after, [right]], ⟨[left], _, mem_sign (by decide) (by decide) opens,
      ⟨before, _, mem_optSpace.2 first, ⟨middle, _, here, ⟨after, _, mem_optSpace.2 last,
        ⟨[right], _, mem_sign (by decide) (by decide) closes, rfl, rfl⟩, rfl⟩, rfl⟩, rfl⟩, rfl⟩, by simp⟩

theorem munches_enclosed {e : Entry Rule}
    (legal : Legal (seq [item (text "("), item optSpace, e, item optSpace, item (text ")")]))
    (apart : Apart e.rule)
    (inside : ∀ w ∈ e.rule.expr.language, ∀ rest, Closes [41] rest → e.rule.expr.Munches w rest)
    (mem : w ∈ (seq [item (text "("), item optSpace, e, item optSpace, item (text ")")]).expr.language) :
    (seq [item (text "("), item optSpace, e, item optSpace, item (text ")")]).expr.Munches w rest := by
  obtain ⟨left, before, middle, after, right, rfl, left_code, first, here, last, right_code⟩ :=
    (mem_enclosed legal).1 mem
  obtain ⟨s, more, rfl, other⟩ := apart middle here
  have munched : Munched [item (text "("), item optSpace, e, item optSpace, item (text ")")]
      [[left], before, s :: more, after, [right]] rest := by
    refine .cons (munches_text (by decide) ?_) (.cons (munches_optSpace first ?_)
      (.cons (inside _ here _ ?_) (.cons (munches_optSpace last ?_)
        (.cons (munches_text (by decide) ?_) .nil))))
    · rw [List.map_singleton, left_code]
      decide
    · rintro _ ⟨⟩
      exact not_isSpace_of_stops other
    · refine ⟨after, right :: rest, by simp, last, ?_⟩
      rintro _ ⟨⟩
      simp [right_code]
    · rintro _ ⟨⟩ (code | code) <;> omega
    · rw [List.map_singleton, right_code]
      decide
  have whole := munches_seq legal munched
  simpa using whole

/-! ### Tokens at every depth -/

/-- An atom is a group if it starts with a parenthesis, and else a literal. -/
theorem delimited_atom (group_ literal_ : Entry Rule) (legal : Legal (oneOf [group_, literal_]))
    (free : group_.rule.expr.isFree = true)
    (opens : ∀ w ∈ group_.rule.expr.language, ∃ s more, w = s :: more ∧ s.code = 40)
    (whole : ∀ w ∈ group_.rule.expr.language, ∀ rest, group_.rule.expr.Munches w rest)
    (same : literal_.rule.expr.language = literal.expr.language)
    (delimited : Delimited (stops ++ signs) literal_.rule) :
    Delimited (stops ++ signs) (oneOf [group_, literal_]) := by
  intro w mem rest stop
  have kinds : w ∈ group_.rule.expr.language ∨ w ∈ literal_.rule.expr.language := by
    simpa using (mem_oneOf legal (by simp)).1 mem
  obtain mem | mem := kinds
  · exact munches_oneOf [] _ legal nofun (whole w mem rest)
  · refine munches_oneOf [group_] _ legal (List.forall_mem_singleton.2 ?_)
      (delimited w mem rest stop)
    refine Expr.refuses_of_language free fun u mem' more cut => ?_
    obtain ⟨s, others, rfl, code⟩ := opens u mem'
    rw [same] at mem
    obtain ⟨x, xs, rfl, kind⟩ := mem_literal_head mem
    obtain ⟨rfl, -⟩ := List.cons_eq_cons.1 cut
    obtain ⟨-, code'⟩ | ⟨-, code'⟩ | ⟨-, on⟩ := kind
    · omega
    · omega
    · exact (contains_bareSet s).1 on (by simp [code])

end

theorem opens_enclosed {e : Entry Rule}
    (legal : Legal (seq [item (text "("), item optSpace, e, item optSpace, item (text ")")])) :
    ∀ w ∈ (seq [item (text "("), item optSpace, e, item optSpace, item (text ")")]).expr.language,
      ∃ s more, w = s :: more ∧ s.code = 40 := by
  intro w mem
  obtain ⟨left, before, middle, after, right, rfl, code, -⟩ := (mem_enclosed legal).1 mem
  exact ⟨left, _, rfl, code⟩

/-- The rules of which the rule for tokens is made. -/
theorem Legal.parts (depth : Nat) (legal : Legal (tokenAt (depth + 1))) :
    Legal (oneOf [item (groupOf (tokenAt depth)), item anyLiteral]) ∧
      Legal (groupOf (tokenAt depth)) ∧ Legal (alternativesOf (tokenAt depth)) ∧
        Legal (tokenAt depth) := by
  have atom := legal.entry (e := item (oneOf _)) (List.mem_cons_self ..)
  have group := atom.entry (e := item (groupOf _)) (List.mem_cons_self ..)
  have choices : Legal (alternativesOf (tokenAt depth)) :=
    group.entry (e := item (alternativesOf _)) (by simp)
  exact ⟨atom, group, choices, choices.entry (e := item (tokenAt depth)) (by simp)⟩

/-- Where a blank, a bar or a closing parenthesis follows, the rule for tokens takes a whole token. By
    induction on the depth of its groups. -/
theorem apart_delimited_tokenAt (depth : Nat) (legal : Legal (tokenAt depth)) :
    Apart (tokenAt depth) ∧ Delimited stops (tokenAt depth) := by
  induction depth with
  | zero =>
    exact ⟨apart_seq legal apart_anyLiteral, delimited_suffixed legal rfl delimited_anyLiteral⟩
  | succ depth ih =>
    obtain ⟨atom, group, choices, one⟩ := legal.parts
    obtain ⟨apart, delimited⟩ := ih one
    have avoids := avoids_tokenAt depth
    have free := one.isFree avoids
    have enclosed : ∀ w ∈ (groupOf (tokenAt depth)).expr.language, ∀ rest,
        (groupOf (tokenAt depth)).expr.Munches w rest := fun w mem rest =>
      munches_enclosed (e := item (alternativesOf _)) group (apart_seq choices apart)
        (fun w mem rest closes =>
          munches_listOf choices free apart delimited separates_separator mem closes) mem
    have first : Apart (oneOf [item (groupOf (tokenAt depth)), item anyLiteral]) :=
      apart_oneOf atom (by simp) (by simpa using ⟨apart_seq group apart_parenthesis, apart_anyLiteral⟩)
    refine ⟨apart_seq legal first, delimited_suffixed legal rfl ?_⟩
    exact delimited_atom _ _ atom (group.isFree (avoids_enclosed (avoids_listOf avoids avoids_separator)))
      (opens_enclosed (e := item (alternativesOf _)) group) enclosed language_anyLiteral
      delimited_anyLiteral

theorem legal_innerToken : Legal innerToken := legal_of_modest modest_innerToken (by decide)

theorem apart_innerToken : Apart innerToken := (apart_delimited_tokenAt _ legal_innerToken).1

theorem delimited_innerToken : Delimited stops innerToken :=
  (apart_delimited_tokenAt _ legal_innerToken).2

theorem isFree_innerToken : innerToken.expr.isFree = true :=
  legal_innerToken.isFree (avoids_tokenAt (maxDepth - 1))

theorem language_alternatives :
    (leaf (alternativesOf innerToken)).expr.language = (alternativesOf innerToken).expr.language :=
  language_leaf modest_alternatives (by decide)

theorem apart_alternatives : Apart (leaf (alternativesOf innerToken)) := by
  intro w mem
  rw [language_alternatives] at mem
  exact apart_seq (legal_of_modest modest_alternatives (by decide)) apart_innerToken w mem

theorem munches_alternatives {w rest : List Scalar}
    (mem : w ∈ (leaf (alternativesOf innerToken)).expr.language) (closes : Closes [41] rest) :
    (leaf (alternativesOf innerToken)).expr.Munches w rest := by
  rw [language_alternatives] at mem
  exact (munches_leaf modest_alternatives (by decide)).2
    (munches_listOf (legal_of_modest modest_alternatives (by decide)) isFree_innerToken
      apart_innerToken delimited_innerToken separates_separator mem closes)

theorem munches_sequence {w rest : List Scalar}
    (mem : w ∈ (leaf (sequenceOf innerToken)).expr.language) (closes : Closes [41, 124] rest) :
    (leaf (sequenceOf innerToken)).expr.Munches w rest := by
  rw [language_sequence] at mem
  exact (munches_leaf modest_sequence (by decide)).2
    (munches_listOf (legal_of_modest modest_sequence (by decide)) isFree_innerToken
      apart_innerToken delimited_innerToken (separates_space _) mem closes)

theorem apart_atom : Apart atom :=
  apart_oneOf legal_atom (by simp) (by simpa using ⟨apart_seq legal_group apart_parenthesis, apart_literal⟩)

theorem apart_token : Apart token := apart_seq legal_token apart_atom

theorem delimited_token : Delimited stops token := by
  have avoids : Avoids 10 group := avoids_token.entry (e := ⟨"atom", atom⟩) (List.mem_cons_self ..)
    |>.entry (e := ⟨"group", group⟩) (List.mem_cons_self ..)
  refine delimited_suffixed (e := ⟨"atom", atom⟩) (d := ⟨"suffix", optional suffix⟩) legal_token rfl ?_
  exact delimited_atom ⟨"group", group⟩ ⟨"literal", literal⟩ legal_atom
    (legal_group.isFree avoids) (opens_enclosed (e := ⟨"alternatives", _⟩) legal_group)
    (fun w mem rest => munches_enclosed (e := ⟨"alternatives", _⟩) legal_group apart_alternatives
      (fun w mem rest closes => munches_alternatives mem closes) mem) rfl delimited_literal

end Bootstrap

end Rulebook

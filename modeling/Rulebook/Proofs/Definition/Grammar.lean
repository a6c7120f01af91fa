import Rulebook.Definition.Bootstrap
import Rulebook.Proofs.Rule.Leads
import Rulebook.Proofs.Rule.Size
import Rulebook.Proofs.Tree.Ready

/-!
# The grammar of definitions is accepted

Every rule that a compiler of definitions matches with is accepted by the matcher, and so is every
rule that it descends to. A token inside a group is a text of its own at each level, so the sizes of
the patterns double from level to level; they stay far below the limits.
-/

namespace Rulebook

namespace Bootstrap

open Pattern Rule

/-! ### Patterns -/

/-- What stands between two quotes of a kind: escapes, and characters without a meaning. -/
def quotedExpr (mark : Nat) (plain : CharSet) : Expr :=
  .cat (.one (.single mark))
    (.cat (.star true (.alt (.one plain) (.cat (.one (.single 92)) (.one .notBreak))))
      (.one (.single mark)))

/-- The patterns of the grammar, and what they are read to. -/
def patterns : List (Bytes × Expr) :=
  [("[ \\t]", .one ⟨[(9, 9), (32, 32)]⟩),
    ("(?m:^)", .test .beginLine),
    ("\\r?\\n|\\z",
      .alt (.cat (.opt true (.one (.single 13))) (.one (.single 10))) (.test .endText)),
    ("[a-zA-Z]", .one ⟨[(65, 90), (97, 122)]⟩),
    ("[0-9]", .one ⟨[(48, 57)]⟩),
    ("\"(?:[^\"\\\\\\r\\n]|\\\\.)*\"",
      quotedExpr 34 ⟨[(0, 9), (11, 12), (14, 33), (35, 91), (93, 1114111)]⟩),
    ("'(?:[^'\\\\\\r\\n]|\\\\.)*'",
      quotedExpr 39 ⟨[(0, 9), (11, 12), (14, 38), (40, 91), (93, 1114111)]⟩),
    ("[^\\s\"'()|?*+;]+",
      .plus true (.one ⟨[(0, 8), (11, 11), (14, 31), (33, 33), (35, 38), (44, 58), (60, 62),
        (64, 123), (125, 1114111)]⟩)),
    ("[^\\r\\n]*", .star true (.one ⟨[(0, 9), (11, 12), (14, 1114111)]⟩))]

theorem simple_patterns : ∀ p ∈ patterns, Simple p.1 p.2 := fun p mem =>
  simple_of_check (List.all_eq_true.1
    (show patterns.all (fun p => isSimple p.1 p.2) = true by decide +kernel) p mem)

theorem simple_of_getElem {source : Bytes} {e : Expr} (n : Nat)
    (h : patterns[n]? = some (source, e)) : Simple source e :=
  simple_patterns (source, e) (List.mem_of_getElem? h)

/-! ### Small rules -/

theorem member_blank : Member (item blank) (IsPart 5 10 61) :=
  (simple_of_getElem 0 rfl).member tag

theorem modest_space : Modest space 8 87 :=
  ((row_nil.cons member_blank).modest (.oneOrMore false) (by decide) (by decide) tag).mono
    (by decide) (by decide)

theorem modest_optSpace : Modest optSpace 8 87 :=
  ((row_nil.cons member_blank).modest (.zeroOrMore false) (by decide) (by decide) tag).mono
    (by decide) (by decide)

/-- What a choice between single characters and texts needs to know of each. -/
theorem fine_text (literal : Bytes) (valid : literal.isUtf8 = true) :
    Plain (text literal) ∧ Sound (text literal) ∧ Unnamed (text literal) :=
  ⟨plain_text tag literal valid, sound_text tag literal, unnamed_text tag literal⟩

theorem fine_letter : Plain letter ∧ Sound letter ∧ Unnamed letter :=
  have simple := simple_of_getElem 3 rfl
  ⟨simple.plain.plain tag, sound_regex (simple.accepted tag), unnamed_regex tag simple.nameless⟩

theorem fine_digit : Plain digit ∧ Sound digit ∧ Unnamed digit :=
  have simple := simple_of_getElem 4 rfl
  ⟨simple.plain.plain tag, sound_regex (simple.accepted tag), unnamed_regex tag simple.nameless⟩

/-- The choices between leaves. -/
def choices : List (List (Entry Rule)) :=
  [[item letter, item underscore], [item letter, item digit, item underscore], suffix.entries]

theorem small_choices : ∀ entries ∈ choices,
    Whole.check (choiceTokens true entries) (readExpr (choiceTokens true entries)) 5 10 50 = true :=
  List.all_eq_true.1 (by decide +kernel)

theorem modest_of_getElem {entries : List (Entry Rule)} (n : Nat) (h : choices[n]? = some entries)
    (fine : ∀ e ∈ entries, e.name = [] ∧ Plain e.rule ∧ Sound e.rule ∧ Unnamed e.rule) :
    Modest (oneOf entries) 6 51 :=
  modest_of_check fine (small_choices entries (List.mem_of_getElem? h)) (by decide) tag

theorem modest_first : Modest (oneOf [item letter, item underscore]) 6 51 := by
  refine modest_of_getElem 0 rfl ?_
  simpa [item] using ⟨fine_letter, fine_text "_" (by decide)⟩

theorem modest_later : Modest (oneOf [item letter, item digit, item underscore]) 6 51 := by
  refine modest_of_getElem 1 rfl ?_
  simpa [item] using ⟨fine_letter, fine_digit, fine_text "_" (by decide)⟩

theorem modest_suffix : Modest suffix 6 51 := by
  refine modest_of_getElem 2 rfl ?_
  simpa [item] using ⟨fine_text "*?" (by decide), fine_text "+?" (by decide),
    fine_text "?" (by decide), fine_text "*" (by decide), fine_text "+" (by decide)⟩

theorem modest_name : Modest name 20 200 := by
  have many := (row_nil.cons modest_later.member.part).modest (.zeroOrMore false) (by decide)
    (by decide) tag
  have row := (row_nil.cons many.member.part).cons modest_first.member.part
  exact (row.modest .seq (by decide) (by decide) tag).mono (by decide) (by decide)

theorem modest_literal : Modest literal 10 170 := by
  refine (modest_oneOf (h := 6) (c := 51) ?_ (by decide) (by decide) tag).mono (by decide)
    (by decide)
  simpa using ⟨(simple_of_getElem 5 rfl).named tag (by decide) (by decide),
    (simple_of_getElem 6 rfl).named tag (by decide) (by decide),
    (simple_of_getElem 7 rfl).named tag (by decide) (by decide)⟩

theorem modest_optSuffix : Modest optSuffix 20 80 :=
  ((row_nil.cons modest_suffix.member.part).modest .optional (by decide) (by decide) tag).mono
    (by decide) (by decide)

theorem member_anyLiteral : Member (item anyLiteral) (IsGroup 10 172) :=
  modest_literal.leaf tag (by decide) (by decide)

theorem length_ascii (b : UInt8) (ascii : b < 0x80) : (Bytes.scalars [b]).length = 1 := by
  rw [Bytes.scalars_cons_ascii ascii]
  simp

/-- A blank, or a bar between blanks. -/
theorem modest_separator : Modest separator 15 400 := by
  have last : Row [] [item (text "|"), item optSpace] 8 1 88 :=
    (row_nil.after modest_optSpace.member.part (length_ascii 124 (by decide))).text (by decide) tag
  have bar : Modest (seq [item optSpace, item (text "|"), item optSpace]) 11 190 :=
    ((last.cons modest_optSpace.member.part).modest .seq (by decide) (by decide) tag).mono
      (by decide) (by decide)
  refine (modest_oneOf (h := 11) (c := 190) ?_ (by decide) (by decide) tag).mono (by decide)
    (by decide)
  simpa using ⟨bar.member, modest_space.member.mono (by decide) (by decide)⟩

/-! ### Groups in groups -/

section

variable {t s : Rule} {h c c' : Nat}

/-- One or more of a rule with another between them. -/
theorem modest_listOf (one : Member (item t) (IsGroup h c))
    (between : Member (item s) (IsGroup h c')) (low : 1 ≤ h) (fits : h + 5 < maxHeight) :
    Modest (seq [item t, item (many [item s, item t])]) (h + 6) (2 * c + c' + 6) := by
  have again := ((row_nil.cons one.part).cons between.part).modest (.zeroOrMore false)
    (by decide) (by omega) tag
  have row := (row_nil.cons again.member.part).cons one.part
  exact (row.modest .seq (by decide) (by omega) tag).mono (by omega) (by omega)

/-- Alternatives in parentheses. -/
theorem modest_enclosed {e : Entry Rule} (choices : Member e (IsGroup h c)) (low : 8 ≤ h)
    (fits : h + 2 < maxHeight) :
    Modest (seq [item (text "("), item optSpace, e, item optSpace, item (text ")")]) (h + 3)
      (c + 190) := by
  have close : Row [] [item (text ")")] 1 1 1 :=
    (row_pending (length_ascii 41 (by decide))).text (by decide) tag
  have inner := (close.cons modest_optSpace.member.part).cons choices.part
  have row : Row [] (item (text "(") :: _) _ _ _ :=
    (inner.after modest_optSpace.member.part (length_ascii 40 (by decide))).text (by decide) tag
  exact (row.modest .seq (by decide) (by omega) tag).mono (by omega) (by omega)

end

/-- The height of the pattern of a token with groups in it up to a depth. -/
def heightAt (depth : Nat) : Nat := 23 + 14 * depth

/-- The cost of the same. -/
def costAt : Nat → Nat
  | 0 => 400
  | depth + 1 => 4 * costAt depth + 1600

theorem costAt_low (depth : Nat) : 400 ≤ costAt depth := by
  cases depth with
  | zero => exact Nat.le_refl _
  | succ depth =>
    rw [costAt]
    omega

theorem member_tokenAt {depth h c : Nat} (modest : Modest (tokenAt depth) h c) :
    Member (item (tokenAt depth)) (IsGroup h c) := by
  cases depth with
  | zero => exact modest.member
  | succ depth => exact modest.member

/-- A token with groups in it up to a depth, by induction on the depth. -/
theorem modest_tokenAt (depth : Nat) (fits : heightAt depth < maxHeight) :
    Modest (tokenAt depth) (heightAt depth) (costAt depth) := by
  induction depth with
  | zero =>
    have row := (row_nil.cons modest_optSuffix.member.part).cons member_anyLiteral.part
    exact (row.modest .seq (by decide) (by decide) tag).mono (by decide) (by decide)
  | succ depth ih =>
    have low := costAt_low depth
    rw [heightAt] at ih fits ⊢
    rw [costAt]
    have one := member_tokenAt (ih (by omega))
    generalize costAt depth = cost at one low ⊢
    have between : Member (item separator) (IsGroup (23 + 14 * depth) 400) :=
      modest_separator.member.mono (by omega) (Nat.le_refl _)
    have choices : Modest (alternativesOf (tokenAt depth)) _ _ :=
      modest_listOf one between (by omega) (by omega)
    have group := (modest_enclosed choices.member (by omega) (by omega)).member
    have members : ∀ e ∈ [item (groupOf (tokenAt depth)), item anyLiteral],
        Member e (IsGroup (23 + 14 * depth + 6 + 3) (2 * cost + 400 + 6 + 190)) := by
      simpa using ⟨group, member_anyLiteral.mono (by omega) (by omega)⟩
    have atom := modest_oneOf members (Nat.le_refl 2) (by omega) tag
    have row := (row_nil.cons modest_optSuffix.member.part).cons atom.member.part
    refine (row.modest .seq (by decide) (by omega) tag).mono (by omega) ?_
    simp only [List.length_cons, List.length_nil]
    omega

/-! ### The rules of the grammar -/

theorem modest_innerToken : Modest innerToken 65 60000 :=
  (modest_tokenAt (maxDepth - 1) (by decide)).mono (by decide) (by decide)

theorem member_innerToken : Member (item innerToken) (IsGroup 65 60000) :=
  member_tokenAt modest_innerToken

theorem modest_alternatives : Modest (alternativesOf innerToken) 71 120500 := by
  have between : Member (item separator) (IsGroup 65 400) :=
    modest_separator.member.mono (by decide) (by decide)
  exact (modest_listOf member_innerToken between (by decide) (by decide)).mono (by decide)
    (by decide)

theorem modest_sequence : Modest (sequenceOf innerToken) 71 120500 := by
  have between : Member (item space) (IsGroup 65 87) :=
    modest_space.member.mono (by decide) (by decide)
  exact (modest_listOf member_innerToken between (by decide) (by decide)).mono (by decide)
    (by decide)

theorem modest_group : Modest group 76 120700 := by
  have choices : Member ⟨"alternatives", leaf (alternativesOf innerToken)⟩ (IsGroup 73 120502) :=
    modest_alternatives.named_leaf tag (by decide) (by decide) (by decide) (by decide)
  exact (modest_enclosed choices (by decide) (by decide)).mono (by decide) (by decide)

theorem modest_atom : Modest atom 90 243000 := by
  refine (modest_oneOf (h := 82) (c := 121100) ?_ (by decide) (by decide) tag).mono (by decide)
    (by decide)
  simpa using ⟨(modest_group.named (by decide) (by decide) (by decide)).mono (by decide)
      (by decide),
    (modest_literal.named (by decide) (by decide) (by decide)).mono (by decide) (by decide)⟩

theorem modest_token : Modest token 95 244000 := by
  have atom : Member ⟨"atom", atom⟩ (IsGroup 92 243002) :=
    modest_atom.named (by decide) (by decide) (by decide)
  have suffix : Member ⟨"suffix", optional suffix⟩ (IsGroup 22 82) :=
    modest_optSuffix.named (by decide) (by decide) (by decide)
  exact (((row_nil.cons suffix.part).cons atom.part).modest .seq (by decide) (by decide)
    tag).mono (by decide) (by decide)

theorem member_token : Member (item (leaf token)) (IsGroup 95 244002) :=
  modest_token.leaf tag (by decide) (by decide)

theorem modest_value : Modest value 101 488200 := by
  have between : Member (item space) (IsGroup 95 87) :=
    modest_space.member.mono (by decide) (by decide)
  exact (modest_listOf member_token between (by decide) (by decide)).mono (by decide) (by decide)

theorem modest_alternative : Modest alternative 80 121000 := by
  have sequence : Member ⟨"sequence", leaf (sequenceOf innerToken)⟩ (IsGroup 73 120502) :=
    modest_sequence.named_leaf tag (by decide) (by decide) (by decide) (by decide)
  have single : Row [] [item (text "|")] 1 1 1 :=
    (row_pending (length_ascii 124 (by decide))).text (by decide) tag
  have bar := (single.modest .optional (by decide) (by decide) tag).member.part
  have row := (((row_nil.cons modest_optSpace.member.part).cons bar).cons
    modest_optSpace.member.part).cons sequence.part
  exact (row.modest .seq (by decide) (by decide) tag).mono (by decide) (by decide)

theorem modest_comment : Modest comment 12 500 := by
  have content : Member ⟨"content", regex "[^\\r\\n]*"⟩ (IsGroup 6 51) :=
    (simple_of_getElem 8 rfl).named tag (by decide) (by decide)
  have close : Row [] [item lineEnd] 5 10 61 := row_nil.cons ((simple_of_getElem 2 rfl).member tag)
  have marked : Row [] (item (text "#") :: _) _ _ _ :=
    (close.after content.part (length_ascii 35 (by decide))).text (by decide) tag
  have row := (marked.cons modest_optSpace.member.part).cons ((simple_of_getElem 1 rfl).member tag)
  exact (row.modest .seq (by decide) (by decide) tag).mono (by decide) (by decide)

theorem modest_ruleEntry : Modest ruleEntry 120 490000 := by
  have name : Member ⟨"name", name⟩ (IsGroup 22 202) :=
    modest_name.named (by decide) (by decide) (by decide)
  have value : Member ⟨"value", value⟩ (IsGroup 103 488202) :=
    modest_value.named (by decide) (by decide) (by decide)
  have blanks := modest_optSpace.member.part
  have close := row_nil.cons ((simple_of_getElem 2 rfl).member tag)
  have ended : Row [] (item (text ";") :: _) _ _ _ :=
    (close.after blanks (length_ascii 59 (by decide))).text (by decide) tag
  have valued := (ended.cons blanks).cons value.part
  have given : Row [] (item (text "=") :: _) _ _ _ :=
    (valued.after blanks (length_ascii 61 (by decide))).text (by decide) tag
  have row := (((given.cons blanks).cons name.part).cons blanks).cons
    ((simple_of_getElem 1 rfl).member tag)
  exact (row.modest .seq (by decide) (by decide) tag).mono (by decide) (by decide)

theorem modest_line : Modest line 130 1000000 := by
  refine (modest_oneOf (h := 122) (c := 490002) ?_ (by decide) (by decide) tag).mono (by decide)
    (by decide)
  simpa using ⟨(modest_comment.named (by decide) (by decide) (by decide)).mono (by decide)
    (by decide), modest_ruleEntry.named (by decide) (by decide) (by decide)⟩

/-! ### Acceptance -/

theorem named_token : (reach token.entries).filter Entry.isNamed =
    [⟨"atom", atom⟩, ⟨"group", group⟩, ⟨"alternatives", leaf (alternativesOf innerToken)⟩,
      ⟨"literal", literal⟩, ⟨"text", quotedText⟩, ⟨"pattern", quotedPattern⟩, ⟨"bare", bare⟩,
      ⟨"suffix", optional suffix⟩] := rfl

theorem named_alternative : (reach alternative.entries).filter Entry.isNamed =
    [⟨"sequence", leaf (sequenceOf innerToken)⟩] := rfl

theorem named_line : (reach line.entries).filter Entry.isNamed =
    [⟨"comment", comment⟩, ⟨"content", regex "[^\\r\\n]*"⟩, ⟨"ruleEntry", ruleEntry⟩,
      ⟨"name", name⟩, ⟨"value", value⟩] := rfl

theorem ready_of_named {r : Rule} {entries : List (Entry Rule)} (sound : Sound r)
    (accepted : Accepted r) (named : (reach r.entries).filter Entry.isNamed = entries)
    (below : ∀ e ∈ entries, Accepted e.rule) : Ready r :=
  ⟨sound, accepted, fun e mem isNamed => below e (named ▸ List.mem_filter.2 ⟨mem, isNamed⟩)⟩

theorem accepted_name : Accepted name := modest_name.accepted (by decide) (by decide) (by decide)

theorem accepted_value : Accepted value := modest_value.accepted (by decide) (by decide) (by decide)

theorem ready_token : Ready token := by
  refine ready_of_named modest_token.sound
    (modest_token.accepted (by decide) (by decide) (by decide)) named_token ?_
  simpa using ⟨modest_atom.accepted (by decide) (by decide) (by decide),
    modest_group.accepted (by decide) (by decide) (by decide),
    modest_alternatives.accepted_leaf tag (by decide) (by decide),
    modest_literal.accepted (by decide) (by decide) (by decide),
    (simple_of_getElem 5 rfl).accepted tag, (simple_of_getElem 6 rfl).accepted tag,
    (simple_of_getElem 7 rfl).accepted tag,
    modest_optSuffix.accepted (by decide) (by decide) (by decide)⟩

theorem ready_alternative : Ready alternative := by
  refine ready_of_named modest_alternative.sound
    (modest_alternative.accepted (by decide) (by decide) (by decide)) named_alternative ?_
  exact List.forall_mem_singleton.2 (modest_sequence.accepted_leaf tag (by decide) (by decide))

theorem ready_line : Ready line := by
  refine ready_of_named modest_line.sound
    (modest_line.accepted (by decide) (by decide) (by decide)) named_line ?_
  simpa using ⟨modest_comment.accepted (by decide) (by decide) (by decide),
    (simple_of_getElem 8 rfl).accepted tag,
    modest_ruleEntry.accepted (by decide) (by decide) (by decide), accepted_name, accepted_value⟩

/-! ### Line breaks -/

theorem modest_isRead {how : Combinator} {entries : List (Entry Rule)} {h c : Nat}
    (modest : Modest (.combine tag how entries) h c) (fits : h < maxHeight) :
    IsRead (.combine tag how entries) := by
  obtain ⟨x, shape, p, read, -⟩ := modest.whole fits
  exact (expr_of_readWith (r := .combine tag how entries) modest.sound.even read.read).1

/-- A combination that stands as a leaf avoids what it avoids by itself. -/
theorem avoids_leaf {how : Combinator} {entries : List (Entry Rule)} {h c code : Nat}
    (modest : Modest (.combine tag how entries) h c) (fits : h < maxHeight)
    (avoids : Avoids code (.combine tag how entries)) :
    Avoids code (leaf (.combine tag how entries)) := by
  obtain ⟨x, shape, p, read, -⟩ := modest.whole fits
  have read := read.read
  have isRead := modest_isRead modest fits
  refine avoids_regex tag ?_
  rw [← Rule.asLeaf, modest.plain.expr_asLeaf modest.unnamed modest.sound.even read,
    Expr.avoids_nameless]
  exact modest.sound.avoids_expr isRead modest.plain.texts avoids

theorem avoids_of_getElem {source : Bytes} {e : Expr} {code : Nat} (n : Nat)
    (h : patterns[n]? = some (source, e)) (avoids : e.avoids code = true) :
    Avoids code (regex source) :=
  avoids_regex tag (by rw [(simple_of_getElem n h).expr_eq]; exact avoids)

theorem avoids_ascii {code : Nat} (literal : Bytes)
    (ascii : ∀ b ∈ literal, b < 0x80 ∧ b.toNat ≠ code) : Avoids code (text literal) := by
  refine avoids_text tag fun s mem => ?_
  have scalars := Bytes.scalars_ascii_append (fun b mem => (ascii b mem).1) []
  rw [List.append_nil, Bytes.scalars_nil, List.append_nil] at scalars
  rw [scalars] at mem
  obtain ⟨b, here, rfl⟩ := List.mem_map.1 mem
  rw [Scalar.code_ascii (ascii b here).1]
  exact (ascii b here).2

section

variable {code : Nat}

theorem avoids_blank (other : code ≠ 9 ∧ code ≠ 32) : Avoids code blank := by
  refine avoids_of_getElem 0 rfl ?_
  simp [CharSet.contains]
  omega

theorem avoids_space (other : code ≠ 9 ∧ code ≠ 32) : Avoids code space :=
  avoids_combine tag _ (List.forall_mem_singleton.2 (avoids_blank other))

theorem avoids_optSpace (other : code ≠ 9 ∧ code ≠ 32) : Avoids code optSpace :=
  avoids_combine tag _ (List.forall_mem_singleton.2 (avoids_blank other))

theorem avoids_seq {entries : List (Entry Rule)} (h : ∀ e ∈ entries, Avoids code e.rule) :
    Avoids code (seq entries) :=
  avoids_combine tag _ h

theorem avoids_oneOf {entries : List (Entry Rule)} (h : ∀ e ∈ entries, Avoids code e.rule) :
    Avoids code (oneOf entries) :=
  avoids_combine tag _ h

theorem avoids_many {entries : List (Entry Rule)} (h : ∀ e ∈ entries, Avoids code e.rule) :
    Avoids code (many entries) :=
  avoids_combine tag _ h

/-- True of the code points of the letters, digits and the underscore of ASCII. -/
def isWordCode (code : Nat) : Bool :=
  (48 ≤ code && code ≤ 57) || (65 ≤ code && code ≤ 90) || code == 95 || (97 ≤ code && code ≤ 122)

theorem avoids_name (other : isWordCode code = false) : Avoids code name := by
  simp only [isWordCode, Bool.or_eq_false_iff, Bool.and_eq_false_iff, decide_eq_false_iff_not,
    beq_eq_false_iff_ne] at other
  have underscore_eq : Bytes.ofString "_" = [95] := by decide
  have low : Avoids code (text "_") := avoids_ascii _ (by
    rw [underscore_eq]
    exact List.forall_mem_singleton.2 ⟨by decide, Ne.symm other.1.2⟩)
  have alpha : Avoids code letter := avoids_of_getElem 3 rfl (by simp [CharSet.contains]; omega)
  have num : Avoids code digit := avoids_of_getElem 4 rfl (by simp [CharSet.contains]; omega)
  have first : Avoids code (oneOf [item letter, item underscore]) :=
    avoids_oneOf (by simpa [item] using ⟨alpha, low⟩)
  have later : Avoids code (oneOf [item letter, item digit, item underscore]) :=
    avoids_oneOf (by simpa [item] using ⟨alpha, num, low⟩)
  have more : Avoids code (many [item (oneOf [item letter, item digit, item underscore])]) :=
    avoids_many (List.forall_mem_singleton.2 later)
  exact avoids_seq (by simpa using ⟨first, more⟩)

end

theorem avoids_literal : Avoids 10 literal :=
  avoids_oneOf (by simpa using ⟨avoids_of_getElem 5 rfl (by decide),
    avoids_of_getElem 6 rfl (by decide), avoids_of_getElem 7 rfl (by decide)⟩)

theorem avoids_anyLiteral : Avoids 10 anyLiteral :=
  avoids_leaf modest_literal (by decide) avoids_literal

theorem avoids_suffix : Avoids 10 suffix :=
  avoids_oneOf (by simpa [item] using ⟨avoids_ascii "*?" (by decide), avoids_ascii "+?" (by decide),
    avoids_ascii "?" (by decide), avoids_ascii "*" (by decide), avoids_ascii "+" (by decide)⟩)

theorem avoids_optSuffix : Avoids 10 optSuffix :=
  avoids_combine tag _ (List.forall_mem_singleton.2 avoids_suffix)

theorem avoids_separator : Avoids 10 separator := by
  have bar : Avoids 10 (seq [item optSpace, item (text "|"), item optSpace]) :=
    avoids_seq (by simpa [item] using ⟨avoids_optSpace (by decide), avoids_ascii "|" (by decide),
      avoids_optSpace (by decide)⟩)
  exact avoids_oneOf (by simpa using ⟨bar, avoids_space (by decide)⟩)

theorem avoids_listOf {t s : Rule} (one : Avoids 10 t) (between : Avoids 10 s) :
    Avoids 10 (seq [item t, item (many [item s, item t])]) := by
  have again : Avoids 10 (many [item s, item t]) := avoids_many (by simpa using ⟨between, one⟩)
  exact avoids_seq (by simpa using ⟨one, again⟩)

theorem avoids_enclosed {e : Entry Rule} (choices : Avoids 10 e.rule) :
    Avoids 10 (seq [item (text "("), item optSpace, e, item optSpace, item (text ")")]) :=
  avoids_seq (by simpa [item] using ⟨avoids_ascii "(" (by decide), avoids_optSpace (by decide),
    choices, avoids_optSpace (by decide), avoids_ascii ")" (by decide)⟩)

theorem avoids_tokenAt (depth : Nat) : Avoids 10 (tokenAt depth) := by
  induction depth with
  | zero => exact avoids_seq (by simpa using ⟨avoids_anyLiteral, avoids_optSuffix⟩)
  | succ depth ih =>
    have group : Avoids 10 (groupOf (tokenAt depth)) :=
      avoids_enclosed (avoids_listOf ih avoids_separator)
    have atom : Avoids 10 (oneOf [item (groupOf (tokenAt depth)), item anyLiteral]) :=
      avoids_oneOf (by simpa using ⟨group, avoids_anyLiteral⟩)
    exact avoids_seq (by simpa using ⟨atom, avoids_optSuffix⟩)

theorem avoids_token : Avoids 10 token := by
  have choices : Avoids 10 (leaf (alternativesOf innerToken)) :=
    avoids_leaf modest_alternatives (by decide)
      (avoids_listOf (avoids_tokenAt (maxDepth - 1)) avoids_separator)
  have group : Avoids 10 group := avoids_enclosed (e := ⟨"alternatives", _⟩) choices
  have atom : Avoids 10 atom := avoids_oneOf (by simpa using ⟨group, avoids_literal⟩)
  exact avoids_seq (by simpa using ⟨atom, avoids_optSuffix⟩)

theorem avoids_value : Avoids 10 value :=
  avoids_listOf (avoids_leaf modest_token (by decide) avoids_token) (avoids_space (by decide))

end Bootstrap

end Rulebook

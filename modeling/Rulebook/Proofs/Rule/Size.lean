import Rulebook.Proofs.Pattern.Nameless
import Rulebook.Proofs.Rule.Anchored

/-!
# Sizes of rules

A rule is accepted if its pattern nests and costs little enough (`Rule.Sized.compiles`). What the
pattern of a combination costs is put together from what the patterns of its entries cost, so that
the size of a large rule is known without reading its pattern. A rule that stands as a leaf costs
what it costs by itself (`Rule.Sized.leaf`).
-/

namespace Rulebook

open Pattern

namespace Rule

/-! ### Rules as leaves -/

/-- True of a rule in none of whose patterns a group has a name. -/
def Unnamed (r : Rule) : Prop :=
  ∀ e ∈ (⟨[], r⟩ : Entry Rule) :: reach r.entries, ∀ tag source, e.rule = regex tag source →
    (leafTokens source).map Token.nameless = leafTokens source

theorem Unnamed.entry {r : Rule} (unnamed : Unnamed r) {e : Entry Rule} (mem : e ∈ r.entries) :
    Unnamed e.rule := by
  intro d below
  obtain rfl | below := List.mem_cons.1 below
  · exact fun tag source eq => unnamed e (List.mem_cons_of_mem _ (mem_reach mem)) tag source eq
  · exact unnamed d (List.mem_cons_of_mem _ (reach_trans_rule r (mem_reach mem) below))

theorem unnamed_text (tag : Nat) (literal : Bytes) : Unnamed (text tag literal) := by
  intro e mem tag source eq
  cases List.mem_singleton.1 mem
  cases eq

theorem unnamed_regex (tag : Nat) {source : Bytes}
    (h : (leafTokens source).map Token.nameless = leafTokens source) :
    Unnamed (regex tag source) := by
  intro e mem tag source eq
  cases List.mem_singleton.1 mem
  cases eq
  exact h

theorem unnamed_combine (tag : Nat) (how : Combinator) {entries : List (Entry Rule)}
    (unnamed : ∀ e ∈ entries, Unnamed e.rule) : Unnamed (combine tag how entries) :=
  forall_below (fun r => ∀ tag source, r = regex tag source →
    (leafTokens source).map Token.nameless = leafTokens source) nofun unnamed

theorem map_nameless_textTokens (p : Bytes) :
    (textTokens p).map Token.nameless = textTokens p := by
  simp [textTokens, Token.nameless]

theorem map_nameless_repetition (how : Combinator) :
    (repetition how).map Token.nameless = repetition how := by
  cases how <;> rfl

section

/-! The names of entries are all that the tokens of the two patterns differ in. What is done to the
    tokens of leaves on both sides is left open, as long as it touches nothing but names. -/

variable {f : Token → Token}

/-- True of a rule in whose leaves a function on tokens takes away the names. -/
def UnnamedBy (f : Token → Token) (r : Rule) : Prop :=
  ∀ e ∈ (⟨[], r⟩ : Entry Rule) :: reach r.entries, ∀ tag source, e.rule = regex tag source →
    (leafTokens source).map f = (leafTokens source).map Token.nameless

theorem UnnamedBy.entry {r : Rule} (unnamed : UnnamedBy f r) {e : Entry Rule} (mem : e ∈ r.entries) :
    UnnamedBy f e.rule := by
  intro d below
  rcases List.mem_cons.1 below with rfl | below
  · exact unnamed e (List.mem_cons_of_mem _ (mem_reach mem))
  · exact unnamed d (List.mem_cons_of_mem _ (reach_trans_rule r (mem_reach mem) below))

variable (fixes : ∀ token : Token, token.nameless = token → f token = token)

include fixes

theorem map_textTokens (p : Bytes) : (textTokens p).map f = textTokens p := by
  rw [textTokens, List.map_map]
  exact List.map_congr_left fun c _ => fixes _ rfl

theorem map_repetition (how : Combinator) : (repetition how).map f = repetition how := by
  cases how with
  | seq | oneOf => rfl
  | optional | zeroOrMore | oneOrMore => exact congrArg (· :: []) (fixes _ rfl)

theorem map_embedTokens {name : Bytes} {kind : Kind} {inner inner' : List Token}
    (same : inner'.map f = inner.map Token.nameless) :
    (embedTokens false name kind inner').map f =
      (embedTokens true name kind inner).map Token.nameless := by
  have close : f .close = .close := fixes _ rfl
  have opener : f (openToken false name) = (openToken true name).nameless := by
    unfold openToken
    split
    · exact fixes _ rfl
    · exact fixes _ rfl
  unfold embedTokens
  split
  · rw [List.map_cons, List.map_append, same, opener, List.map_singleton, close, List.map_cons,
      List.map_append]
    rfl
  · exact same

mutual

theorem map_tokens : ∀ r : Rule, UnnamedBy f r →
    (tokens false r).map f = (tokens true r).map Token.nameless
  | regex tag source, unnamed => unnamed _ (List.mem_cons_self ..) tag source rfl
  | text tag literal, _ => (map_textTokens fixes literal).trans (map_nameless_textTokens literal).symm
  | combine tag how entries, unnamed => by
      have below : ∀ e ∈ entries, UnnamedBy f e.rule := fun e mem => unnamed.entry mem
      have opener : f (.capture []) = .capture [] := fixes _ rfl
      have close : f .close = .close := fixes _ rfl
      simp only [tokens, List.map_cons, List.map_append, map_nameless_repetition,
        map_repetition fixes, opener, close, Token.nameless]
      split
      · rw [map_choiceTokens entries below]
      · rw [map_seqTokens entries below]

theorem map_seqTokens : ∀ (entries : List (Entry Rule)), (∀ e ∈ entries, UnnamedBy f e.rule) →
    ∀ pending, (seqTokens false pending entries).map f =
      (seqTokens true pending entries).map Token.nameless
  | [], _, pending => (map_textTokens fixes pending).trans (map_nameless_textTokens pending).symm
  | ⟨name, r⟩ :: rest, unnamed, pending => by
      have later := map_seqTokens rest fun e mem => unnamed e (List.mem_cons_of_mem _ mem)
      simp only [seqTokens]
      split
      · exact later _
      · rw [List.map_append, List.map_append, map_textTokens fixes, later, List.map_append,
          List.map_append, map_nameless_textTokens,
          map_embedTokens fixes (map_tokens r (unnamed ⟨name, r⟩ (List.mem_cons_self ..)))]

theorem map_choiceTokens : ∀ entries : List (Entry Rule), (∀ e ∈ entries, UnnamedBy f e.rule) →
    (choiceTokens false entries).map f = (choiceTokens true entries).map Token.nameless
  | [], _ => rfl
  | ⟨name, r⟩ :: rest, unnamed => by
      have later := map_choiceTokens rest fun e mem => unnamed e (List.mem_cons_of_mem _ mem)
      have bar : f .bar = .bar := fixes _ rfl
      simp only [choiceTokens, List.map_append]
      rw [map_embedTokens fixes (map_tokens r (unnamed ⟨name, r⟩ (List.mem_cons_self ..)))]
      split
      · rfl
      · rw [List.map_cons, bar, later, List.map_cons]
        rfl

end

end

/-- Without the names of its entries, a rule has the same tokens without names. -/
theorem tokens_false (r : Rule) (unnamed : Unnamed r) :
    tokens false r = (tokens true r).map Token.nameless := by
  have same := map_tokens (f := id) (fun _ _ => rfl) r fun e mem tag source eq => by
    rw [List.map_id, unnamed e mem tag source eq]
  rwa [List.map_id] at same

/-- The tokens of the two patterns of a rule are the same up to names. -/
theorem map_nameless_tokens (r : Rule) :
    (tokens false r).map Token.nameless = (tokens true r).map Token.nameless :=
  map_tokens (fun _ same => same) r fun _ _ _ _ _ => rfl

/-- A combination that stands as a leaf has the same tokens without names. -/
theorem Plain.leafTokens_pattern {tag : Nat} {how : Combinator} {entries : List (Entry Rule)}
    (plain : Plain (combine tag how entries)) (unnamed : Unnamed (combine tag how entries)) :
    leafTokens (pattern (combine tag how entries)) =
      (tokens true (combine tag how entries)).map Token.nameless :=
  (plain.leaf false).2.trans (tokens_false _ unnamed)

theorem Plain.asLeaf {tag : Nat} {how : Combinator} {entries : List (Entry Rule)}
    (plain : Plain (combine tag how entries)) (tag' : Nat) :
    Plain ((combine tag how entries).asLeaf tag') := (plain.leaf false).1.plain tag'

theorem Unnamed.asLeaf {tag : Nat} {how : Combinator} {entries : List (Entry Rule)}
    (unnamed : Unnamed (combine tag how entries)) (plain : Plain (combine tag how entries))
    (tag' : Nat) : Unnamed ((combine tag how entries).asLeaf tag') := by
  refine unnamed_regex tag' ?_
  rw [plain.leafTokens_pattern unnamed, List.map_map]
  congr 1
  funext token
  cases token <;> rfl

/-- A combination that stands as a leaf denotes the same without names. -/
theorem Plain.expr_asLeaf {tag : Nat} {how : Combinator} {entries : List (Entry Rule)}
    (plain : Plain (combine tag how entries)) (unnamed : Unnamed (combine tag how entries))
    (even : ∀ e ∈ reach entries, Even e.rule) {parts : Expr × Shape}
    (read : Sketch.read (tokens true (combine tag how entries)) = some parts) (tag' : Nat) :
    ((combine tag how entries).asLeaf tag').expr = (combine tag how entries).expr.nameless := by
  have nameless := Sketch.read_nameless (tokens true (combine tag how entries))
  rw [read, Option.map_some, Sketch.read_eq] at nameless
  rw [Rule.asLeaf, expr, plain.leafTokens_pattern unnamed, readExpr, nameless,
    ← (expr_of_readWith (r := combine tag how entries) even read).2]
  rfl

/-! ### Names -/

/-- The names that are not empty. -/
def titles (names : List Bytes) : List Bytes := names.filter (!·.isEmpty)

@[simp] theorem titles_append (xs ys : List Bytes) : titles (xs ++ ys) = titles xs ++ titles ys :=
  List.filter_append ..

@[simp] theorem titles_empty_cons (names : List Bytes) : titles ([] :: names) = titles names := rfl

theorem titles_nameless (tokens : List Token) :
    titles (Token.names (tokens.map Token.nameless)) = [] :=
  List.filter_eq_nil_iff.2 fun name mem => by simp [Token.names_map_nameless tokens name mem]

theorem names_embedTokens (name : Bytes) (kind : Kind) (inner : List Token) :
    titles (Token.names (embedTokens true name kind inner)) =
      titles [name] ++ titles (Token.names inner) := by
  unfold embedTokens openToken isGrouped
  cases name with
  | nil =>
    cases kind == .regex <;> simp [Token.names, Token.names_append, titles]
  | cons b name => simp [Token.names, Token.names_append, titles]

theorem names_textTokens (p : Bytes) : Token.names (textTokens p) = [] := by
  unfold textTokens
  induction p.scalars with
  | nil => rfl
  | cons c rest ih => exact ih

theorem titles_reach_cons (name : Bytes) (r : Rule) (rest : List (Entry Rule)) :
    titles ((reach (⟨name, r⟩ :: rest)).map Entry.name) =
      titles [name] ++ (titles ((reach r.entries).map Entry.name) ++
        titles ((reach rest).map Entry.name)) := by
  rw [reach_cons, List.map_cons, List.map_append, ← List.singleton_append, titles_append,
    titles_append]

mutual

/-- The groups with a name in the pattern of a rule are those of the entries with a name. -/
theorem titles_tokens : ∀ r : Rule, Unnamed r →
    titles (Token.names (tokens true r)) = titles ((reach r.entries).map Entry.name)
  | regex tag source, unnamed => by
      rw [tokens, ← unnamed _ (List.mem_cons_self ..) tag source rfl, titles_nameless]
      rfl
  | text tag literal, _ => by
      rw [tokens, names_textTokens]
      rfl
  | combine tag how entries, unnamed => by
      have below : ∀ e ∈ entries, Unnamed e.rule := fun e mem => unnamed.entry mem
      have last : Token.names (.close :: repetition how) = [] := by cases how <;> rfl
      rw [tokens, Token.names, titles_empty_cons, Token.names_append, last, List.append_nil]
      split
      · exact titles_choiceTokens entries below
      · exact titles_seqTokens entries below []

theorem titles_seqTokens : ∀ entries : List (Entry Rule), (∀ e ∈ entries, Unnamed e.rule) →
    ∀ pending, titles (Token.names (seqTokens true pending entries)) =
      titles ((reach entries).map Entry.name)
  | [], _, pending => by
      rw [seqTokens, names_textTokens]
      rfl
  | ⟨name, r⟩ :: rest, unnamed, pending => by
      have later := titles_seqTokens rest fun e mem => unnamed e (List.mem_cons_of_mem _ mem)
      have here := titles_tokens r (unnamed ⟨name, r⟩ (List.mem_cons_self ..))
      rw [titles_reach_cons]
      simp only [seqTokens]
      split
      · rename_i literal found
        obtain ⟨rfl, tag, rfl⟩ := eq_text_of_literal? found
        exact later _
      · rw [Token.names_append, Token.names_append, names_textTokens, List.nil_append,
          titles_append, names_embedTokens, here, later, List.append_assoc]

theorem titles_choiceTokens : ∀ entries : List (Entry Rule), (∀ e ∈ entries, Unnamed e.rule) →
    titles (Token.names (choiceTokens true entries)) = titles ((reach entries).map Entry.name)
  | [], _ => rfl
  | ⟨name, r⟩ :: rest, unnamed => by
      have later := titles_choiceTokens rest fun e mem => unnamed e (List.mem_cons_of_mem _ mem)
      have here := titles_tokens r (unnamed ⟨name, r⟩ (List.mem_cons_self ..))
      have bar : Token.names (if rest.isEmpty then [] else .bar :: choiceTokens true rest) =
          Token.names (choiceTokens true rest) := by
        cases rest <;> rfl
      rw [titles_reach_cons, choiceTokens, Token.names_append, bar, titles_append, names_embedTokens,
        here, later, List.append_assoc]

end

theorem repeated?_of_titles {names : List Bytes} (distinct : (titles names).Nodup) :
    repeated? [] names = none :=
  repeated?_eq_none.2 ⟨distinct, nofun⟩

/-! ### Sizes of entries -/

/-- A plain rule in which no pattern names a group, and which is read to a single group: how high
    that is at most, and what it costs. -/
structure Modest (r : Rule) (height cost : Nat) : Prop where
  plain : Plain r
  sound : Sound r
  unnamed : Unnamed r
  block : ∃ e, Block (tokens true r) e height cost

/-- An entry with such a rule that is no anonymous text, and what is known of its tokens inside a
    larger pattern. -/
structure Member (e : Entry Rule) (known : List Token → Prop) : Prop where
  valid : e.name = [] ∨ isValidName e.name = true
  plain : Plain e.rule
  sound : Sound e.rule
  unnamed : Unnamed e.rule
  alone : literal? e.name e.rule = none
  known : known (embedTokens true e.name e.rule.kind (tokens true e.rule))

/-- Tokens that are read to a single group. -/
def IsGroup (height cost : Nat) (tokens : List Token) : Prop := ∃ x, Block tokens x height cost

/-- Tokens that are read to a single part. -/
def IsPart (height listed cost : Nat) (tokens : List Token) : Prop :=
  ∃ x, Portion tokens [x] height listed cost

/-- Entries one after another, after a text. -/
structure Row (pending : Bytes) (entries : List (Entry Rule)) (height listed cost : Nat) :
    Prop where
  valid : ∀ e ∈ entries, e.name = [] ∨ isValidName e.name = true
  plain : ∀ e ∈ entries, Plain e.rule
  sound : ∀ e ∈ entries, Sound e.rule
  unnamed : ∀ e ∈ entries, Unnamed e.rule
  low : 1 ≤ height
  portion : ∃ es, Portion (seqTokens true pending entries) es height listed cost

/-- A plain pattern that names no group, is read to an expression, and is small. -/
structure Simple (source : Bytes) (e : Expr) : Prop where
  plain : PlainLeaf source
  nameless : (leafTokens source).map Token.nameless = leafTokens source
  whole : Whole (leafTokens source) e 5 10 50

/-- Decides whether a pattern is simple. -/
def isSimple (source : Bytes) (e : Expr) : Bool :=
  (Token.scan source.scalars).all (·.toOption.isSome) && source.isUtf8 &&
    source.head? != some 63 &&
    (!namesClass source.scalars && source.scalars.all (·.char != 'Q')) &&
    decide ((leafTokens source).map Token.nameless = leafTokens source) &&
    Whole.check (leafTokens source) e 5 10 50

theorem map_ok_leafTokens {source : Bytes}
    (fine : (Token.scan source.scalars).all (·.toOption.isSome) = true) :
    Token.scan source.scalars = (leafTokens source).map .ok := by
  rw [leafTokens]
  generalize Token.scan source.scalars = tokens at fine ⊢
  induction tokens with
  | nil => rfl
  | cons token rest ih =>
    rw [List.all_cons, Bool.and_eq_true] at fine
    cases token with
    | error fault => cases fine.1
    | ok token =>
      rw [List.filterMap_cons_some (show (Except.ok token).toOption = some token from rfl),
        List.map_cons, ← ih fine.2]

theorem simple_of_check {source : Bytes} {e : Expr} (checked : isSimple source e = true) :
    Simple source e := by
  simp only [isSimple, Bool.and_eq_true, bne_iff_ne] at checked
  obtain ⟨⟨⟨⟨⟨scanned, valid⟩, fresh⟩, free⟩, nameless⟩, whole⟩ := checked
  refine ⟨(plainLeaf_of_scan (map_ok_leafTokens scanned) valid fresh ?_).1,
    of_decide_eq_true nameless, .of_check whole⟩
  simpa using free

theorem Simple.accepted {source : Bytes} {e : Expr} (simple : Simple source e) (tag : Nat) :
    Accepted (regex tag source) := by
  have unique : repeated? [] (Token.names (tokens true (regex tag source))) = none := by
    refine repeated?_of_titles ?_
    rw [tokens, ← simple.nameless, titles_nameless]
    exact List.nodup_nil
  obtain ⟨c, compiled, -⟩ := (simple.plain.plain tag).compiles simple.whole (by decide)
    (by decide) (by decide) unique
  exact ⟨c, compiled⟩

theorem Simple.expr_eq {source : Bytes} {e : Expr} (simple : Simple source e) (tag : Nat) :
    (regex tag source).expr = e := by
  obtain ⟨shape, p, read, -⟩ := simple.whole
  have read := read.read
  rw [Sketch.read_eq] at read
  rw [expr, readExpr, read]

section

variable {r : Rule} {e : Entry Rule} {name : Bytes} {h l c : Nat}

theorem Modest.mono {h' c' : Nat} (modest : Modest r h c) (height : h ≤ h') (cost : c ≤ c') :
    Modest r h' c' :=
  ⟨modest.plain, modest.sound, modest.unnamed, modest.block.imp fun _ block => block.mono height cost⟩

theorem literal?_named (r : Rule) (isNamed : name ≠ []) : literal? name r = none := by
  cases r <;> simp [literal?, isNamed]

theorem embedTokens_named (kind : Kind) (inner : List Token) (isNamed : name ≠ []) :
    embedTokens true name kind inner = .capture name :: (inner ++ [Token.close]) := by
  simp [embedTokens, isGrouped, openToken, isNamed]

theorem Member.part (member : Member e (IsGroup h c)) : Member e (IsPart h 0 c) :=
  { member with known := member.known.imp fun _ block => block.portion }

theorem Member.mono {h' c' : Nat} (member : Member e (IsGroup h c)) (height : h ≤ h')
    (cost : c ≤ c') : Member e (IsGroup h' c') :=
  { member with known := member.known.imp fun _ block => block.mono height cost }

/-! ### Members -/

theorem Modest.member {tag : Nat} {how : Combinator} {entries : List (Entry Rule)}
    (modest : Modest (combine tag how entries) h c) :
    Member ⟨[], combine tag how entries⟩ (IsGroup h c) :=
  ⟨.inl rfl, modest.plain, modest.sound, modest.unnamed, rfl, modest.block⟩

theorem member_of_whole {x : Expr} (plain : Plain r) (sound : Sound r) (unnamed : Unnamed r)
    (whole : Whole (tokens true r) x h l c) (valid : isValidName name = true) (isNamed : name ≠ [])
    (fits : h < maxHeight) : Member ⟨name, r⟩ (IsGroup (h + 1) (c + 1)) := by
  refine ⟨.inr valid, plain, sound, unnamed, literal?_named r isNamed, .group 0 name x, ?_⟩
  rw [embedTokens_named _ _ isNamed]
  exact whole.captured name fits

theorem Modest.whole (modest : Modest r h c) (fits : h < maxHeight) :
    ∃ x, Whole (tokens true r) x (h + 1) 0 (c + 1) :=
  modest.block.elim fun _ block => ⟨_, block.portion.whole fits⟩

theorem Modest.named (modest : Modest r h c) (valid : isValidName name = true)
    (isNamed : name ≠ []) (fits : h + 1 < maxHeight) :
    Member ⟨name, r⟩ (IsGroup (h + 2) (c + 2)) :=
  (modest.whole (by omega)).elim fun _ whole =>
    member_of_whole modest.plain modest.sound modest.unnamed whole valid isNamed fits

theorem Simple.member {source : Bytes} {x : Expr} (simple : Simple source x) (tag : Nat) :
    Member ⟨[], regex tag source⟩ (IsPart 5 10 61) :=
  ⟨.inl rfl, simple.plain.plain tag, sound_regex (simple.accepted tag),
    unnamed_regex tag simple.nameless, rfl, x,
    simple.whole.enclosed (by decide)⟩

theorem Simple.named {source : Bytes} {x : Expr} (simple : Simple source x) (tag : Nat)
    (valid : isValidName name = true) (isNamed : name ≠ []) :
    Member ⟨name, regex tag source⟩ (IsGroup 6 51) :=
  member_of_whole (simple.plain.plain tag) (sound_regex (simple.accepted tag))
    (unnamed_regex tag simple.nameless) simple.whole valid isNamed (by decide)

/-- A combination that stands as a leaf is read within the same bounds. -/
theorem Modest.whole_leaf {tag : Nat} {how : Combinator} {entries : List (Entry Rule)}
    (modest : Modest (combine tag how entries) h c) (tag' : Nat) (fits : h < maxHeight) :
    ∃ x, Whole (tokens true ((combine tag how entries).asLeaf tag')) x (h + 1) 0 (c + 1) := by
  obtain ⟨x, whole⟩ := modest.whole fits
  have nameless := whole.nameless
  rw [← modest.plain.leafTokens_pattern modest.unnamed] at nameless
  exact ⟨_, nameless⟩

/-- A combination that stands as a leaf is accepted if its size is within the limits. -/
theorem Modest.accepted_leaf {tag : Nat} {how : Combinator} {entries : List (Entry Rule)}
    (modest : Modest (combine tag how entries) h c) (tag' : Nat)
    (height : h + 1 < maxHeight) (cost : c + 5 < maxWeight) :
    Accepted ((combine tag how entries).asLeaf tag') := by
  obtain ⟨x, whole⟩ := modest.whole_leaf tag' (by omega)
  obtain ⟨c, compiled, -⟩ := (modest.plain.asLeaf tag').compiles whole (Nat.le_add_left ..) height
    (by omega) (repeated?_of_titles (by
      rw [Rule.asLeaf, tokens, modest.plain.leafTokens_pattern modest.unnamed, titles_nameless]
      exact List.nodup_nil))
  exact ⟨c, compiled⟩

/-- A combination that stands as a leaf without a name is still one group. -/
theorem Modest.leaf {tag : Nat} {how : Combinator} {entries : List (Entry Rule)}
    (modest : Modest (combine tag how entries) h c) (tag' : Nat) (height : h + 1 < maxHeight)
    (cost : c + 5 < maxWeight) :
    Member ⟨[], (combine tag how entries).asLeaf tag'⟩ (IsGroup h (c + 2)) := by
  obtain ⟨x, block⟩ := modest.block
  refine ⟨.inl rfl, modest.plain.asLeaf tag', sound_regex (modest.accepted_leaf tag' height cost),
    modest.unnamed.asLeaf modest.plain tag', rfl, x.nameless, ?_⟩
  have nameless := block.nameless (by omega)
  rw [← modest.plain.leafTokens_pattern modest.unnamed] at nameless
  exact nameless

theorem Modest.named_leaf {tag : Nat} {how : Combinator} {entries : List (Entry Rule)}
    (modest : Modest (combine tag how entries) h c) (tag' : Nat) (valid : isValidName name = true)
    (isNamed : name ≠ []) (height : h + 1 < maxHeight) (cost : c + 5 < maxWeight) :
    Member ⟨name, (combine tag how entries).asLeaf tag'⟩ (IsGroup (h + 2) (c + 2)) :=
  (modest.whole_leaf tag' (by omega)).elim fun _ whole =>
    member_of_whole (modest.plain.asLeaf tag') (sound_regex (modest.accepted_leaf tag' height cost))
      (modest.unnamed.asLeaf modest.plain tag') whole valid isNamed height

/-! ### Combinations -/

theorem row_pending {pending : Bytes} {n : Nat} (length : pending.scalars.length = n) :
    Row pending [] 1 n n :=
  ⟨nofun, nofun, nofun, nofun, Nat.le_refl 1, _, length ▸ portion_text pending⟩

theorem row_nil : Row [] [] 1 0 0 := row_pending (by simp)

theorem Row.text {pending literal : Bytes} {rest : List (Entry Rule)}
    (row : Row (pending ++ literal) rest h l c) (valid : literal.isUtf8 = true) (tag : Nat) :
    Row pending (⟨[], Rule.text tag literal⟩ :: rest) h l c where
  valid := List.forall_mem_cons.2 ⟨.inl rfl, row.valid⟩
  plain := List.forall_mem_cons.2 ⟨plain_text tag literal valid, row.plain⟩
  sound := List.forall_mem_cons.2 ⟨sound_text tag literal, row.sound⟩
  unnamed := List.forall_mem_cons.2 ⟨unnamed_text tag literal, row.unnamed⟩
  low := row.low
  portion := row.portion

/-- An entry after a text and before other entries. -/
theorem Row.after {rest : List (Entry Rule)} {h' l' c' : Nat} (row : Row [] rest h' l' c')
    (member : Member e (IsPart h l c)) {pending : Bytes} {n : Nat}
    (length : pending.scalars.length = n) :
    Row pending (e :: rest) (max h h') (n + (l + l')) (n + (c + c')) where
  valid := List.forall_mem_cons.2 ⟨member.valid, row.valid⟩
  plain := List.forall_mem_cons.2 ⟨member.plain, row.plain⟩
  sound := List.forall_mem_cons.2 ⟨member.sound, row.sound⟩
  unnamed := List.forall_mem_cons.2 ⟨member.unnamed, row.unnamed⟩
  low := Nat.le_trans row.low (Nat.le_max_right ..)
  portion := by
    obtain ⟨es, others⟩ := row.portion
    obtain ⟨x, here⟩ := member.known
    obtain ⟨name, r⟩ := e
    refine ⟨textExprs pending ++ ([x] ++ es), ?_⟩
    rw [seqTokens, show literal? name r = none from member.alone]
    have low := row.low
    subst length
    exact ((portion_text pending).append (here.append others)).mono (by omega) (Nat.le_refl _)
      (Nat.le_refl _)

theorem Row.cons {rest : List (Entry Rule)} {h' l' c' : Nat} (row : Row [] rest h' l' c')
    (member : Member e (IsPart h l c)) : Row [] (e :: rest) (max h h') (l + l') (c + c') := by
  have none : (Bytes.scalars []).length = 0 := by simp
  simpa using row.after member none

/-- Entries one after another, once or as often as the combinator says. -/
theorem Row.modest {entries : List (Entry Rule)} (row : Row [] entries h l c) (how : Combinator)
    (seq : how ≠ .oneOf) (fits : h + 2 < maxHeight) (tag : Nat) :
    Modest (combine tag how entries) (h + 3) (c + (1 + 2 * l) + 2) := by
  refine ⟨plain_combine tag how row.valid row.plain, sound_combine tag how row.valid row.sound,
    unnamed_combine tag how row.unnamed, ?_⟩
  obtain ⟨es, portion⟩ := row.portion
  have whole := portion.whole (by omega)
  have eq : tokens true (combine tag how entries) =
      Token.capture [] :: (seqTokens true [] entries ++ [Token.close]) ++ repetition how := by
    simp [tokens, seq]
  rw [eq]
  cases how with
  | seq =>
    rw [repetition, List.append_nil]
    exact ⟨_, (whole.captured [] (by omega)).mono (Nat.le_succ _) (Nat.le_succ _)⟩
  | oneOf => exact absurd rfl seq
  | optional => exact ⟨_, whole.repeated [] fits (by simp) _ _⟩
  | zeroOrMore isLazy => exact ⟨_, whole.repeated [] fits (by simp) _ _⟩
  | oneOrMore isLazy => exact ⟨_, whole.repeated [] fits (by simp) _ _⟩

theorem choiceTokens_barred (entries : List (Entry Rule)) :
    choiceTokens true entries = barred (entries.map fun e =>
      embedTokens true e.name e.rule.kind (tokens true e.rule)) := by
  induction entries with
  | nil => rfl
  | cons e rest ih =>
    obtain ⟨name, r⟩ := e
    rw [choiceTokens, List.map_cons, barred, ih, List.isEmpty_map]

theorem block_of_choice {entries : List (Entry Rule)} {x : Expr}
    (whole : Whole (choiceTokens true entries) x h l c) (fits : h < maxHeight) (tag : Nat) :
    ∃ x, Block (tokens true (combine tag .oneOf entries)) x (h + 1) (c + 1) := by
  have eq : tokens true (combine tag .oneOf entries) =
      .capture [] :: (choiceTokens true entries ++ [Token.close]) := by
    simp [tokens, repetition]
  refine ⟨.group 0 [] x, ?_⟩
  rw [eq]
  exact whole.captured [] fits

theorem alternatives_of_members {entries : List (Entry Rule)}
    (members : ∀ e ∈ entries, Member e (IsGroup h c)) :
    ∃ alternatives : List Alternative,
      alternatives.map Alternative.tokens = (entries.map fun e =>
        embedTokens true e.name e.rule.kind (tokens true e.rule)) ∧
      (∀ a ∈ alternatives, Block a.tokens a.expr h a.cost) ∧
      Alternative.total alternatives = entries.length * (c + 2) := by
  induction entries with
  | nil => exact ⟨[], rfl, nofun, by simp [Alternative.total]⟩
  | cons e rest ih =>
    obtain ⟨others, same, blocks, total⟩ := ih fun d mem => members d (List.mem_cons_of_mem _ mem)
    obtain ⟨x, block⟩ := (members e (List.mem_cons_self ..)).known
    let first : Alternative :=
      ⟨embedTokens true e.name e.rule.kind (tokens true e.rule), x, c⟩
    refine ⟨first :: others, by simp [first, same], ?_, ?_⟩
    · simpa using ⟨block, blocks⟩
    · rw [Alternative.total, List.map_cons, List.sum_cons, ← Alternative.total, total,
        List.length_cons, Nat.succ_mul, Nat.add_comm]

/-- A choice between entries that are groups. -/
theorem modest_oneOf {entries : List (Entry Rule)}
    (members : ∀ e ∈ entries, Member e (IsGroup h c)) (several : 2 ≤ entries.length)
    (fits : h + 1 < maxHeight) (tag : Nat) :
    Modest (combine tag .oneOf entries) (h + 2) (entries.length * (c + 2) + 3) := by
  have valid := fun e mem => (members e mem).valid
  refine ⟨plain_combine tag _ valid fun e mem => (members e mem).plain,
    sound_combine tag _ valid fun e mem => (members e mem).sound,
    unnamed_combine tag _ fun e mem => (members e mem).unnamed, ?_⟩
  obtain ⟨alternatives, same, blocks, total⟩ := alternatives_of_members members
  have length : alternatives.length = entries.length := by
    simpa using congrArg List.length same
  have whole := Whole.choice (by omega) blocks (by omega)
  rw [same, ← choiceTokens_barred, total] at whole
  exact block_of_choice whole fits tag

end

/-- A choice whose pattern is small. -/
theorem modest_of_check {entries : List (Entry Rule)} {h l c : Nat}
    (fine : ∀ e ∈ entries, e.name = [] ∧ Plain e.rule ∧ Sound e.rule ∧ Unnamed e.rule)
    (checked : Whole.check (choiceTokens true entries) (readExpr (choiceTokens true entries)) h l
      c = true)
    (fits : h < maxHeight) (tag : Nat) : Modest (combine tag .oneOf entries) (h + 1) (c + 1) :=
  have valid := fun e mem => Or.inl (fine e mem).1
  ⟨plain_combine tag _ valid fun e mem => (fine e mem).2.1,
    sound_combine tag _ valid fun e mem => (fine e mem).2.2.1,
    unnamed_combine tag _ fun e mem => (fine e mem).2.2.2,
    block_of_choice (.of_check checked) fits tag⟩

/-! ### Acceptance -/

/-- A rule is accepted if its size is within the limits and the names of its entries are
    distinct. -/
theorem Modest.accepted {r : Rule} {h c : Nat} (modest : Modest r h c) (height : h + 1 < maxHeight)
    (cost : c + 5 < maxWeight) (distinct : (titles ((reach r.entries).map Entry.name)).Nodup) :
    Accepted r := by
  obtain ⟨x, whole⟩ := modest.whole (by omega)
  rw [← titles_tokens r modest.unnamed] at distinct
  obtain ⟨c, compiled, -⟩ := modest.plain.compiles whole (Nat.le_add_left ..) height (by omega)
    (repeated?_of_titles distinct)
  exact ⟨c, compiled⟩

end Rule

end Rulebook

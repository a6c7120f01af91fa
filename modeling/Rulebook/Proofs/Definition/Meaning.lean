import Rulebook.Proofs.Definition.Rows
import Rulebook.Proofs.Registry

/-!
# What tokens are read to

A row of tokens is read to what the tokens stand for, and if one of them stands for nothing it cannot be
read (`Definition.toOption_readTokens`).
-/

namespace Rulebook

open Pattern Bytes

namespace Definition

open Rule
open Bootstrap (IsSpace item joined token alternative atom sequenceOf alternativesOf innerToken)

/-! ### Results -/

section

variable {ε α β γ : Type}

theorem toOption_bind (x : Except ε α) (f : α → Except ε β) :
    (x >>= f).toOption = x.toOption.bind fun a => (f a).toOption := by
  cases x <;> rfl

theorem toOption_mapM (f : α → Except ε β) (as : List α) :
    (as.mapM f).toOption = as.mapM fun a => (f a).toOption := by
  induction as with
  | nil => rfl
  | cons a as ih =>
    rw [List.mapM_cons, List.mapM_cons, toOption_bind]
    cases f a with
    | error e => rfl
    | ok b =>
      change (as.mapM f >>= _).toOption = _
      rw [toOption_bind, ih]
      rfl

theorem eq_ok_of_toOption {x : Except ε α} {a : α} (h : x.toOption = some a) : x = .ok a := by
  cases x with
  | error e => cases h
  | ok b => cases h; rfl

/-- Lists that agree element by element come to the same. -/
theorem mapM_of_forall₂ {f : α → Option γ} {g : β → Option γ} {as : List α} {bs : List β}
    (all : List.Forall₂ (fun a b => g b = f a) as bs) : bs.mapM g = as.mapM f := by
  induction all with
  | nil => rfl
  | cons here _ ih => rw [List.mapM_cons, List.mapM_cons, here, ih]

end

variable {c : Context} {base : Int} {depth : Nat} {text : Bytes} {w : List Scalar} {t : Tree}

theorem lift_ok {α : Type} (a : α) (f : α → Except Halt β) : (lift (.ok a) >>= f) = f a := rfl

theorem mapM_map_right {α β γ : Type} (f : α → Option β) (g : β → γ) (as : List α) :
    (as.mapM fun a => (f a).map g) = (as.mapM f).map (List.map g) := by
  induction as with
  | nil => rfl
  | cons a as ih =>
    rw [List.mapM_cons, List.mapM_cons, ih]
    cases f a with
    | none => rfl
    | some b => cases as.mapM f <;> rfl

/-- The trees of a rule that is ready are its nodes. -/
theorem mapM_trees {r : Rule} (ready : Ready r) (text : Bytes) {α : Type} (f : Tree → Except Halt α) :
    ((r.matcher.trees text).mapM fun result => do f (← lift result)) = (r.nodes text).mapM f := by
  have trees : r.matcher.trees text = (r.nodes text).map .ok := ready.trees_eq text
  rw [trees, List.mapM_map]
  rfl

/-- Entries whose names are valid can be combined. -/
theorem combine_eq (how : Combinator) {entries : List (Entry Rule)} (some_entry : entries ≠ [])
    (names : ∀ e ∈ entries, e.name = [] ∨ isValidName e.name = true) :
    combine c how entries = .ok (.combine c.tag how entries) := by
  have known : Kind.ofCode? how.code = some (.combine how) := by
    cases how with
    | zeroOrMore lazy => cases lazy <;> rfl
    | oneOrMore lazy => cases lazy <;> rfl
    | _ => rfl
  have built : Rule.combineItems c.tag how (entries.map Item.ofEntry) = .ok (.combine c.tag how entries) := by
    rw [combineItems, if_neg (by simpa using some_entry), toEntries_map_ofEntry names]
  rw [combine, ofItems, build, known]
  simp only [built]
  rfl

theorem combine_items (c : Context) (how : Combinator) {rules : List Rule} (some_rule : rules ≠ []) :
    combine c how (rules.map item) = .ok (.combine c.tag how (rules.map item)) :=
  combine_eq how (by simpa using some_rule) (List.forall_mem_map.2 fun _ _ => Or.inl rfl)

/-! ### Literals -/

section

variable {l : Literal} {node : Tree}

/-- What a literal is can be told from its first character. -/
theorem Literal.Spelled.head (h : l.Spelled w) : ∃ s more, w = s :: more ∧
    l.entry = if s.code = 34 then ⟨"text", Bootstrap.quotedText⟩ else
      if s.code = 39 then ⟨"pattern", Bootstrap.quotedPattern⟩ else ⟨"bare", Bootstrap.bare⟩ := by
  cases h with
  | text opens => exact ⟨_, _, rfl, by rw [if_pos opens]; rfl⟩
  | pattern opens => exact ⟨_, _, rfl, by rw [if_neg (by omega), if_pos opens]; rfl⟩
  | bare some_char all =>
    obtain ⟨s, more, rfl⟩ := List.exists_cons_of_ne_nil some_char
    have other := all s (List.mem_cons_self ..)
    simp only [List.mem_cons, List.not_mem_nil, or_false, not_or] at other
    exact ⟨s, more, rfl, by rw [if_neg (by omega), if_neg (by omega)]; rfl⟩

theorem Literal.Spelled.entry_eq {l' : Literal} (h : l.Spelled w) (h' : l'.Spelled w) : l.entry = l'.entry := by
  obtain ⟨s, more, rfl, kind⟩ := h.head
  obtain ⟨s', more', eq, kind'⟩ := h'.head
  cases eq
  rw [kind, kind']

theorem Literal.Spelled.text_eq {quoted : List Scalar} (h : Literal.Spelled (.text quoted) w) : w = quoted := by
  cases h
  rfl

theorem Literal.Spelled.bare_eq {word : List Scalar} (h : Literal.Spelled (.bare word) w) : w = word := by
  cases h
  rfl

theorem Literal.Spelled.pattern_eq {inside : List Scalar}
    (h : Literal.Spelled (.pattern inside) text.scalars) : text = 39 :: (ofScalars inside ++ [39]) := by
  generalize eq : text.scalars = w at h
  cases h with
  | @pattern left right _ opens mem closes =>
    have byte {s : Scalar} (here : s ∈ text.scalars) (code : s.code = 39) : s.bytes = [39] :=
      Bootstrap.bytes_of_code here (by decide) code
    rw [← ofScalars_scalars text, eq, ofScalars_cons, ofScalars_append, ofScalars_cons,
      byte (eq ▸ List.mem_cons_self ..) opens, byte (eq ▸ by simp) closes]
    rfl

/-- A literal has one part, under the name of what it is. -/
theorem part_of_literal (grown : Grown Bootstrap.literal node) (spelled : l.Spelled node.text.scalars) :
    ∃ child, (∀ title, node.child? title = if l.entry.name == title then some child else none) ∧
      child.text = node.text := by
  obtain ⟨e, entry, child, only, named, -, same, own⟩ := Bootstrap.part_of_oneOf Bootstrap.legal_literal
    Bootstrap.avoids_literal (by simp) (by decide) grown (mem_literal.2 ⟨l, spelled⟩)
  have own_name : e.name = l.entry.name := by
    simp only [List.mem_cons, List.not_mem_nil, or_false] at entry
    obtain rfl | rfl | rfl := entry
    · rw [spelled.entry_eq (mem_quotedText.1 own)]
      rfl
    · obtain ⟨inside, other⟩ := mem_quotedPattern.1 own
      rw [spelled.entry_eq other]
      rfl
    · rw [spelled.entry_eq (mem_bare.1 own)]
      rfl
  refine ⟨child, fun title => ?_, same⟩
  rw [Tree.child?, only, List.find?_singleton, named, own_name]

/-- What stands between two quotes. -/
theorem slice_quoted (left right : UInt8) (inside : Bytes) :
    slice (left :: (inside ++ [right])) 1 ((left :: (inside ++ [right])).length - 1) = inside := by
  simp only [slice, List.drop_one, List.tail_cons, List.length_cons, List.length_append, List.length_nil,
    Nat.zero_add, Nat.add_sub_cancel, List.take_left]

theorem recognises_name (word : Bytes) : Bootstrap.name.recognises word = isIdentifier word := by
  rw [Bool.eq_iff_iff, Rule.recognises_iff, ← mem_name_iff]
  refine ⟨fun matched => ?_, Bootstrap.matches_name⟩
  have avoids : Avoids 10 Bootstrap.name := Bootstrap.avoids_name (by decide)
  exact (Bootstrap.modest_name.sound.matches_iff Bootstrap.accepted_name nofun
    (Avoids.conditionFree Bootstrap.modest_name.sound avoids) word).1 matched

/-- A literal is read to what it stands for. -/
theorem toOption_readLiteral (bootstrap : c.grammar = .bootstrap) (grown : Grown Bootstrap.literal node)
    (spelled : l.Spelled node.text.scalars) :
    (readLiteral c base node).toOption = l.meaning c.registry c.tag := by
  obtain ⟨child, part, same⟩ := part_of_literal grown spelled
  cases l with
  | text quoted =>
    have here : node.child? "text" = some child := (part _).trans (if_pos rfl)
    have word : child.text = ofScalars quoted := by rw [same, ← spelled.text_eq, ofScalars_scalars]
    rw [readLiteral, here, Literal.meaning]
    dsimp only
    rw [word]
    cases (ofScalars quoted).unquote? <;> rfl
  | pattern inside =>
    have other : node.child? "text" = none :=
      (part _).trans (if_neg (show ¬ (("pattern" : Bytes) == "text") = true by decide))
    have here : node.child? "pattern" = some child := (part _).trans (if_pos rfl)
    have word : child.text = 39 :: (ofScalars inside ++ [39]) := by rw [same, spelled.pattern_eq]
    rw [readLiteral, other, here, Literal.meaning]
    dsimp only
    rw [word, if_neg (by simp), slice_quoted]
    rfl
  | bare word =>
    have other : node.child? "text" = none :=
      (part _).trans (if_neg (show ¬ (("bare" : Bytes) == "text") = true by decide))
    have other' : node.child? "pattern" = none :=
      (part _).trans (if_neg (show ¬ (("bare" : Bytes) == "pattern") = true by decide))
    have here : node.child? "bare" = some child := (part _).trans (if_pos rfl)
    have word_eq : child.text = ofScalars word := by rw [same, ← spelled.bare_eq, ofScalars_scalars]
    have accepts : c.grammar.name.accepts child.text = .ok (isIdentifier child.text) := by
      rw [bootstrap, ← recognises_name]
      exact Bootstrap.accepted_name.accepts_eq child.text
    rw [readLiteral, other, other', here]
    dsimp only
    rw [accepts, lift_ok, word_eq, Literal.meaning]
    cases isIdentifier (ofScalars word) with
    | false => rfl
    | true =>
      rw [if_pos rfl, if_pos rfl, Registry.get]
      cases c.registry.get? (ofScalars word) <;> rfl

end

/-! ### What phrases stand for -/

section

variable {registry : Registry} {tag : Nat} {row : List Phrase} {entries : List (Entry Rule)}

theorem rowMeaning_eq (row : List Phrase) :
    Phrase.rowMeaning registry tag row = row.mapM (Phrase.meaning registry tag) := by
  induction row with
  | nil => rfl
  | cons p row ih => rw [Phrase.rowMeaning, ih, List.mapM_cons]

theorem rowsMeaning_eq (rows : List (List Phrase)) : Phrase.rowsMeaning registry tag rows =
    rows.mapM fun row => (Phrase.rowMeaning registry tag row).map (rowRule tag) := by
  induction rows with
  | nil => rfl
  | cons row rows ih =>
    rw [Phrase.rowsMeaning, ih, List.mapM_cons]
    cases Phrase.rowMeaning registry tag row <;> rfl

theorem length_of_mapM {α β : Type} {f : α → Option β} {as : List α} {bs : List β}
    (h : as.mapM f = some bs) : bs.length = as.length := by
  induction as generalizing bs with
  | nil =>
    cases h
    rfl
  | cons a as ih =>
    rw [List.mapM_cons] at h
    obtain ⟨b, -, h⟩ := Option.bind_eq_some_iff.1 h
    obtain ⟨rest, known, h⟩ := Option.bind_eq_some_iff.1 h
    cases h
    rw [List.length_cons, List.length_cons, ih known]

/-- A row of tokens stands for as many entries. -/
theorem rowMeaning_ne_nil (some_token : row ≠ []) (h : Phrase.rowMeaning registry tag row = some entries) :
    entries ≠ [] := by
  rw [rowMeaning_eq] at h
  rw [← List.length_pos_iff, length_of_mapM h, List.length_pos_iff]
  exact some_token

/-- An entry that a token stands for has the name of an identifier, or none. -/
theorem name_of_meaning {p : Phrase} {e : Entry Rule} (h : p.meaning registry tag = some e) :
    e.name = [] ∨ isValidName e.name = true := by
  have outside (sign : Option Combinator) (e : Entry Rule) : (signed tag sign e).name = e.name := by
    cases sign <;> rfl
  cases p with
  | group rows sign =>
    rw [Phrase.meaning] at h
    obtain ⟨rules, -, rfl⟩ := Option.map_eq_some_iff.1 h
    exact .inl (outside ..)
  | literal l sign =>
    rw [Phrase.meaning] at h
    obtain ⟨d, known, rfl⟩ := Option.map_eq_some_iff.1 h
    rw [outside]
    cases l with
    | text quoted =>
      obtain ⟨value, -, rfl⟩ := Option.map_eq_some_iff.1 known
      exact .inl rfl
    | pattern inside =>
      cases known
      exact .inl rfl
    | bare word =>
      rw [Literal.meaning] at known
      split at known
      · rename_i valid
        obtain ⟨rule, -, rfl⟩ := Option.map_eq_some_iff.1 known
        rw [isIdentifier, Bool.and_eq_true] at valid
        exact .inr valid.1
      · cases known
        exact .inl rfl

theorem names_of_rowMeaning (h : Phrase.rowMeaning registry tag row = some entries) :
    ∀ e ∈ entries, e.name = [] ∨ isValidName e.name = true := by
  induction row generalizing entries with
  | nil =>
    cases h
    exact nofun
  | cons p row ih =>
    rw [Phrase.rowMeaning] at h
    obtain ⟨e, here, h⟩ := Option.bind_eq_some_iff.1 h
    obtain ⟨rest, known, h⟩ := Option.bind_eq_some_iff.1 h
    cases h
    exact List.forall_mem_cons.2 ⟨name_of_meaning here, ih known⟩

end

/-! ### Tokens -/

/-- A text whose characters have the code points of ASCII is made of them. -/
theorem eq_of_codes {s sign : Bytes} (ascii : ∀ b ∈ sign, b < 0x80)
    (codes : s.scalars.map Scalar.code = sign.map UInt8.toNat) : s = sign := by
  have low : ∀ c ∈ s.scalars, c.code < 0x80 := by
    intro c mem
    have here : c.code ∈ sign.map UInt8.toNat := codes ▸ List.mem_map_of_mem mem
    obtain ⟨b, mem, eq⟩ := List.mem_map.1 here
    exact eq ▸ ascii b mem
  obtain ⟨t, asciis, eq⟩ := exists_bytes_of_codes (fun _ mem => mem) low
  have same : s = t := by rw [← ofScalars_scalars s, eq, ofScalars_map_ascii]
  have numbers : (t.map Scalar.ascii).map Scalar.code = t.map UInt8.toNat := by
    rw [List.map_map]
    exact List.map_congr_left fun b mem => Scalar.code_ascii (asciis b mem)
  rw [eq, numbers] at codes
  exact same.trans (List.map_injective_iff.2 (fun _ _ => UInt8.toNat_inj.1) codes)

/-- True of a reader that reads rows, up to a depth, to what they stand for. -/
def Reads (c : Context) (depth : Nat) (read : TokenReader) : Prop :=
  ∀ text base row, SpelledRow depth row text.scalars →
    (read text base).toOption = Phrase.rowMeaning c.registry c.tag row

variable {read : TokenReader} {row : List Phrase} {rows : List (List Phrase)} {p : Phrase}

theorem toOption_readAlternative (reads : Reads c depth read) {sequence : Tree}
    (named : t.child? "sequence" = some sequence) (spelled : SpelledRow depth row sequence.text.scalars) :
    (readAlternative c read base t).toOption =
      ((Phrase.rowMeaning c.registry c.tag row).map (rowRule c.tag)).map some := by
  rw [readAlternative, named]
  dsimp only
  rw [toOption_bind, reads _ _ _ spelled]
  cases known : Phrase.rowMeaning c.registry c.tag row with
  | none => rfl
  | some entries =>
    match entries with
    | [] => exact absurd rfl (rowMeaning_ne_nil spelled.ne_nil known)
    | [e] => rfl
    | e :: e' :: rest =>
      have combined := combine_items c .seq (show (e :: e' :: rest).map Entry.rule ≠ [] by simp)
      rw [List.map_map] at combined
      change (combine c .seq ((e :: e' :: rest).map (item ∘ Entry.rule)) >>= fun rule => pure (some rule)).toOption = _
      rw [combined]
      rfl

/-- A group is read to the choice between its alternatives. -/
theorem toOption_readGroup (bootstrap : c.grammar = .bootstrap) (fits : depth ≤ 3) (reads : Reads c depth read)
    (grown : Grown Bootstrap.group t) (spelled : Enclosed (SpelledRows depth rows) t.text.scalars) :
    (readGroup c read base t).toOption =
      (Phrase.rowsMeaning c.registry c.tag rows).map fun rules => .combine c.tag .oneOf (rules.map item) := by
  obtain ⟨left, before, middle, after, right, eq, opens, blanks, inside, blanks', closes⟩ := spelled
  obtain ⟨alternatives, named, same⟩ := Bootstrap.parts_group grown eq opens blanks
    (mem_alternatives_of_spelled fits inside) blanks' closes
  have nodes := nodes_of_rows alternatives.text fits (same ▸ inside)
  rw [readGroup, named]
  dsimp only
  rw [bootstrap, show Grammar.bootstrap.alternative = Bootstrap.alternative.matcher from rfl,
    mapM_trees Bootstrap.ready_alternative, toOption_bind, toOption_mapM,
    mapM_of_forall₂ (nodes.imp fun row t ⟨sequence, named, spelled⟩ => toOption_readAlternative reads named spelled),
    mapM_map_right, ← rowsMeaning_eq]
  cases known : Phrase.rowsMeaning c.registry c.tag rows with
  | none => rfl
  | some rules =>
    have some_rule : rules ≠ [] := by
      rw [rowsMeaning_eq] at known
      rw [← List.length_pos_iff, length_of_mapM known, List.length_pos_iff]
      exact inside.ne_nil
    have all : (rules.map some).filterMap id = rules := by simp
    simp only [Option.map_some, Option.bind_some, all]
    change (combine c .oneOf (rules.map item)).toOption = _
    rw [combine_items c .oneOf some_rule]
    rfl

/-- An atom that is a literal, or a group, is read to what it stands for. -/
theorem toOption_readAtom_literal (bootstrap : c.grammar = .bootstrap) {l : Literal} {inner : Tree}
    (named : t.child? "atom" = some inner) (grown : Grown atom inner) (spelled : l.Spelled inner.text.scalars) :
    (readAtom c read base t).toOption = l.meaning c.registry c.tag := by
  obtain ⟨other, literal, here, same, grown'⟩ :=
    Bootstrap.literal_of_atom grown (mem_literal.2 ⟨l, spelled⟩)
  rw [readAtom, named]
  dsimp only
  rw [other, here]
  exact toOption_readLiteral bootstrap grown' (same ▸ spelled)

theorem toOption_readAtom_group (base : Int) (bootstrap : c.grammar = .bootstrap) (fits : depth ≤ 3) (reads : Reads c depth read)
    {inner : Tree} (named : t.child? "atom" = some inner) (grown : Grown atom inner)
    (spelled : Enclosed (SpelledRows depth rows) inner.text.scalars) :
    (readAtom c read base t).toOption = (Phrase.rowsMeaning c.registry c.tag rows).map fun rules =>
      item (.combine c.tag .oneOf (rules.map item)) := by
  obtain ⟨group, here, same, grown'⟩ := Bootstrap.group_of_atom grown (mem_group_of_spelled fits spelled)
  rw [readAtom, named]
  dsimp only
  rw [here]
  dsimp only
  rw [toOption_bind, toOption_readGroup bootstrap fits reads grown' (same ▸ spelled)]
  cases Phrase.rowsMeaning c.registry c.tag rows <;> rfl

theorem ofSuffix?_sign {how : Combinator} {sign : Bytes} (known : signOf how = some sign) :
    sign.isEmpty = false ∧ ofSuffix? sign = some how := by
  cases how with
  | zeroOrMore lazy => cases lazy <;> cases known <;> decide
  | oneOrMore lazy => cases lazy <;> cases known <;> decide
  | optional => cases known; decide
  | seq => cases known
  | oneOf => cases known

/-- The sign of a token repeats what its atom is read to. -/
theorem toOption_readToken {a : Option (Entry Rule)} {sign : Option Combinator} {suffix : Tree}
    (atom_ : (readAtom c read base t).toOption = a) (named : t.child? "suffix" = some suffix)
    (signed_ : Signed sign suffix.text.scalars) :
    (readToken c read base t).toOption = a.map (signed c.tag sign) := by
  rw [readToken, toOption_bind, atom_]
  cases a with
  | none => rfl
  | some e =>
    rw [Option.bind_some, named, Option.map_some]
    dsimp only
    cases sign with
    | none =>
      have empty : suffix.text = [] := by rw [← ofScalars_scalars suffix.text, show suffix.text.scalars = [] from signed_]; rfl
      rw [empty]
      rfl
    | some how =>
      obtain ⟨sign, known, codes⟩ := signed_
      have mem := signOf_eq_some known
      have same : suffix.text = sign := eq_of_codes (Bootstrap.ascii_suffixes sign mem) codes
      have found := ofSuffix?_sign known
      rw [same, found.1, found.2]
      have combined := combine_items c how (show [e.rule] ≠ [] by simp)
      change (combine c how ([e.rule].map item) >>= _).toOption = _
      rw [combined]
      rfl

/-- A token is read to what it stands for. -/
theorem toOption_token (bootstrap : c.grammar = .bootstrap) (fits : depth ≤ Bootstrap.maxDepth)
    (reads : ∀ less, depth = less + 1 → Reads c less read) (mem : t ∈ token.nodes text)
    (spelled : Phrase.Spelled depth p t.text.scalars) :
    (readToken c read base t).toOption = p.meaning c.registry c.tag := by
  cases p with
  | literal l sign =>
    obtain ⟨first, last, eq, here, mark⟩ := spelled_literal.1 spelled
    obtain ⟨inner, suffix, atom_, same, grown, suffix_, same'⟩ := Bootstrap.parts_token mem
      (Bootstrap.mem_atom.2 (.inr (mem_literal.2 ⟨l, here⟩))) (mem_optSuffix.2 ⟨sign, mark⟩) eq
    rw [Phrase.meaning]
    exact toOption_readToken (toOption_readAtom_literal bootstrap atom_ grown (same ▸ here)) suffix_ (same' ▸ mark)
  | group rows sign =>
    cases depth with
    | zero => exact spelled.elim
    | succ less =>
      obtain ⟨first, last, eq, here, mark⟩ := spelled
      have deep : less ≤ 3 := Nat.le_of_succ_le_succ fits
      obtain ⟨inner, suffix, atom_, same, grown, suffix_, same'⟩ := Bootstrap.parts_token mem
        (Bootstrap.mem_atom.2 (.inl (mem_group_of_spelled deep here))) (mem_optSuffix.2 ⟨sign, mark⟩) eq
      have read_atom := toOption_readAtom_group base bootstrap deep (reads less rfl) atom_ grown (same ▸ here)
      rw [toOption_readToken read_atom suffix_ (same' ▸ mark), Phrase.meaning, Option.map_map]
      rfl

/-- A row of tokens is read to what the tokens stand for. By induction on the depth of groups. -/
theorem toOption_readTokens (bootstrap : c.grammar = .bootstrap) (fits : depth ≤ Bootstrap.maxDepth) :
    Reads c depth (readTokens c (depth + 1)) := by
  have step {depth : Nat} (fits : depth ≤ Bootstrap.maxDepth)
      (reads : ∀ less, depth = less + 1 → Reads c less (readTokens c depth)) :
      Reads c depth (readTokens c (depth + 1)) := by
    intro text base row spelled
    have known := (List.forall₂_and_left _ _).2 ⟨fun t mem => mem, (nodes_of_row fits spelled).flip⟩
    rw [readTokens, bootstrap, show Grammar.bootstrap.token = token.matcher from rfl,
      mapM_trees Bootstrap.ready_token, toOption_mapM, rowMeaning_eq]
    refine mapM_of_forall₂ (known.flip.imp ?_)
    intro p t here
    exact toOption_token bootstrap fits reads here.1 here.2
  induction depth with
  | zero =>
    refine step fits fun less eq => ?_
    cases eq
  | succ depth ih =>
    refine step fits fun less eq => ?_
    cases eq
    exact ih (Nat.le_of_succ_le fits)

/-- A value is read to what its row stands for. -/
theorem toOption_readValue (base : Int) (bootstrap : c.grammar = .bootstrap) {row : List Phrase}
    (spelled : SpelledRow Bootstrap.maxDepth row text.scalars) :
    (readValue c text base).toOption = valueRule c.registry c.tag row := by
  rw [(readValue_depth bootstrap text base).same, toOption_bind,
    toOption_readTokens bootstrap (Nat.le_refl _) _ _ _ spelled, valueRule]
  cases known : Phrase.rowMeaning c.registry c.tag row with
  | none => rfl
  | some entries =>
    rw [Option.bind_some, combine_eq .seq (rowMeaning_ne_nil spelled.ne_nil known) (names_of_rowMeaning known)]
    rfl

end Definition

end Rulebook

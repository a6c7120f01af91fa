import Rulebook.Proofs.Definition.Meaning
import Rulebook.Proofs.Text.Quoted

/-!
# Literals in writing

Every text can be written as a quoted literal, and every pattern in which backslashes come in pairs as
a pattern between single quotes: what is written is recognised as a whole and read back to the same
bytes (`Definition.literal_written`). Where a token ends and what a backslash stands for is decided
twice, by the grammar and by the reader, so both are followed byte by byte.
-/

namespace Rulebook

open Pattern Bytes

namespace Definition

open Rule

/-! ### Patterns between quotes -/

/-- True of a pattern in which every backslash starts a pair, and none of the pairs is a quote. -/
inductive Paired : Bytes → Prop where
  | nil : Paired []
  | plain {b : UInt8} {p : Bytes} : b ≠ 92 → Paired p → Paired (b :: p)
  | pair {b : UInt8} {p : Bytes} : b ≠ 39 → Paired p → Paired (92 :: b :: p)

/-- A pattern with a backslash before every quote that has none. -/
def escapeQuotes : Bytes → Bytes
  | [] => []
  | [b] => if b == 39 then [92, 39] else [b]
  | b :: c :: rest =>
      if b == 92 then 92 :: c :: escapeQuotes rest
      else if b == 39 then 92 :: 39 :: escapeQuotes (c :: rest)
      else b :: escapeQuotes (c :: rest)

/-- A pattern between single quotes. -/
def quotePattern (p : Bytes) : Bytes := 39 :: (escapeQuotes p ++ [39])

theorem escapeQuotes_pair (b : UInt8) (p : Bytes) :
    escapeQuotes (92 :: b :: p) = 92 :: b :: escapeQuotes p := rfl

theorem escapeQuotes_quote (p : Bytes) : escapeQuotes (39 :: p) = 92 :: 39 :: escapeQuotes p := by
  cases p <;> rfl

theorem escapeQuotes_plain {b : UInt8} (slash : b ≠ 92) (quote : b ≠ 39) (p : Bytes) :
    escapeQuotes (b :: p) = b :: escapeQuotes p := by
  cases p with
  | nil => exact if_neg (by simpa using quote)
  | cons c p => rw [escapeQuotes, if_neg (by simpa using slash), if_neg (by simpa using quote)]

theorem unescapePattern_plain {b : UInt8} (slash : b ≠ 92) (p : Bytes) :
    unescapePattern (b :: p) = b :: unescapePattern p := by
  rw [unescapePattern]
  rintro c rest rfl
  exact absurd rfl slash

/-- The reader takes away the backslashes that the writer put in, and no others. -/
theorem unescapePattern_escapeQuotes {p : Bytes} (h : Paired p) :
    unescapePattern (escapeQuotes p) = p := by
  induction h with
  | nil => rfl
  | @plain b p slash _ ih =>
    by_cases quote : b = 39
    · rw [quote, escapeQuotes_quote, unescapePattern, if_pos (by decide), ih]
    · rw [escapeQuotes_plain slash quote, unescapePattern_plain slash, ih]
  | @pair b p quote _ ih =>
    rw [escapeQuotes_pair, unescapePattern, if_neg (by simpa using quote), ih]

/-! ### What may stand between quotes -/

/-- Bytes that may stand between quotes, one after another or in pairs that a backslash starts. -/
inductive Inside (mark : UInt8) : Bytes → Prop where
  | nil : Inside mark []
  | plain {b : UInt8} {s : Bytes} : b ∉ [10, 13, mark, 92] → Inside mark s → Inside mark (b :: s)
  | pair {b : UInt8} {s : Bytes} : b ≠ 10 → Inside mark s → Inside mark (92 :: b :: s)

theorem Inside.append {mark : UInt8} {s t : Bytes} (h : Inside mark s) (h' : Inside mark t) :
    Inside mark (s ++ t) := by
  induction h with
  | nil => exact h'
  | plain other _ ih => exact .plain other ih
  | pair other _ ih => exact .pair other ih

theorem inside_of_forall {mark : UInt8} {s : Bytes} (h : ∀ b ∈ s, b ∉ [10, 13, mark, 92]) :
    Inside mark s := by
  induction s with
  | nil => exact .nil
  | cons b s ih =>
    rcases List.forall_mem_cons.1 h with ⟨here, others⟩
    exact .plain here (ih others)

/-- After bytes that are not ASCII a byte may stand where it may stand without them. -/
theorem Inside.of_append {mark : UInt8} {s t : Bytes} (high : ∀ b ∈ s, 0x80 ≤ b.toNat)
    (h : Inside mark (s ++ t)) : Inside mark t := by
  induction s with
  | nil => exact h
  | cons b s ih =>
    rcases List.forall_mem_cons.1 high with ⟨here, others⟩
    apply ih others
    rw [List.cons_append] at h
    generalize s ++ t = rest at h
    cases h with
    | plain _ later => exact later
    | pair => exact absurd here (by decide)

/-- What may stand between quotes byte by byte may do so character by character. By induction on the
    length, because a character takes several bytes. -/
theorem Inside.quotable {mark : UInt8} (ascii : mark < 0x80) {s : Bytes} (h : Inside mark s) :
    Quotable mark.toNat s.scalars := by
  -- a byte beyond ASCII and the rest of its character make one character that may stand there
  have wide {b : UInt8} (high : ¬ b < 0x80) (rest : Bytes) :
      (Scalar.ofHead b rest).code ∉ [10, 13, mark.toNat, 92] := by
    have code := Scalar.code_ofHead high rest
    have low : mark.toNat < 0x80 := ascii
    simp only [List.mem_cons, List.not_mem_nil, or_false, not_or]
    omega
  have skip {b : UInt8} (high : ¬ b < 0x80) {rest : Bytes} (inside : Inside mark rest) :
      Inside mark (rest.drop ((Scalar.ofHead b rest).width - 1)) := by
    have bytes := (Scalar.bytes_ofHead b rest).1
    have all := Scalar.high_ofHead high rest
    rw [bytes] at all
    rw [← List.take_append_drop ((Scalar.ofHead b rest).width - 1) rest] at inside
    exact inside.of_append (List.forall_mem_cons.1 all).2
  induction n : s.length using Nat.strongRecOn generalizing s with
  | ind n ih =>
    have later {t : Bytes} (shorter : t.length < s.length) (inside : Inside mark t) :
        Quotable mark.toNat t.scalars := ih _ (n ▸ shorter) inside rfl
    cases h with
    | nil => exact .nil
    | @plain b rest other inside =>
      by_cases low : b < 0x80
      · rw [scalars_cons_ascii low]
        refine .plain ?_ (later (by simp) inside)
        rw [Scalar.code_ascii low]
        simpa [← UInt8.toNat_inj] using other
      · rw [scalars_cons]
        have shorter : (rest.drop ((Scalar.ofHead b rest).width - 1)).length < (b :: rest).length := by
          simp only [List.length_cons, List.length_drop]
          omega
        exact .plain (wide low rest) (later shorter (skip low inside))
    | @pair b rest other inside =>
      rw [scalars_cons_ascii (by decide)]
      by_cases low : b < 0x80
      · rw [scalars_cons_ascii low]
        refine .escaped rfl ?_ (later (by simp only [List.length_cons]; omega) inside)
        rw [Scalar.code_ascii low]
        simpa [← UInt8.toNat_inj] using other
      · rw [scalars_cons]
        have shorter :
            (rest.drop ((Scalar.ofHead b rest).width - 1)).length < (92 :: b :: rest).length := by
          simp only [List.length_cons, List.length_drop]
          omega
        refine .escaped rfl ?_ (later shorter (skip low inside))
        exact fun line => wide low rest (by simp [line])

/-! ### What is written may stand between quotes -/

theorem inside_escapeQuotes {p : Bytes} (line : ∀ b ∈ p, b ≠ 10 ∧ b ≠ 13) (h : Paired p) :
    Inside 39 (escapeQuotes p) := by
  induction h with
  | nil => exact .nil
  | @plain b p slash _ ih =>
    rcases List.forall_mem_cons.1 line with ⟨here, others⟩
    by_cases quote : b = 39
    · rw [quote, escapeQuotes_quote]
      exact .pair (by decide) (ih others)
    · rw [escapeQuotes_plain slash quote]
      refine .plain ?_ (ih others)
      simp [here, quote, slash]
  | @pair b p quote _ ih =>
    rcases List.forall_mem_cons.1 (List.forall_mem_cons.1 line).2 with ⟨here, others⟩
    rw [escapeQuotes_pair]
    exact .pair here.1 (ih others)

theorem mem_hex {width n : Nat} {b : UInt8} (mem : b ∈ hex width n) : ∃ k < 16, b = digit k := by
  induction width generalizing n with
  | zero => cases mem
  | succ width ih =>
    rcases List.mem_append.1 mem with mem | mem
    · exact ih mem
    · exact ⟨n % 16, Nat.mod_lt _ (by decide), List.mem_singleton.1 mem⟩

/-- An escape that a letter starts and digits end. -/
theorem inside_hex {letter : UInt8} (other : letter ≠ 10) (width n : Nat) :
    Inside 34 (92 :: letter :: hex width n) := by
  refine .pair other (inside_of_forall fun b mem => ?_)
  rcases mem_hex mem with ⟨k, fits, rfl⟩
  have : ∀ k < 16, digit k ∉ [10, 13, 34, 92] := by decide
  exact this k fits

theorem inside_escapeChar (c : Char) : Inside 34 (escapeChar c) := by
  unfold escapeChar
  cases known : escapeLetter? c with
  | some letter =>
    refine .pair ?_ .nil
    rintro rfl
    unfold escapeLetter? at known
    split at known <;> cases known
  | none =>
    dsimp only
    split
    · exact inside_hex (by decide) 2 _
    split
    · exact inside_hex (by decide) 4 _
    · exact inside_hex (by decide) 8 _

/-- Each character of a quoted text may stand between its quotes. -/
theorem inside_quoteScalar (a : UInt8) (rest : Bytes) :
    Inside 34 (quoteScalar (Scalar.ofHead a rest)) := by
  unfold quoteScalar
  split
  · rename_i stray
    rw [Scalar.bytes_of_isStray stray, List.flatMap_singleton]
    exact inside_hex (by decide) 2 _
  split
  · rename_i special
    have code : (Scalar.ofHead a rest).code = 34 ∨ (Scalar.ofHead a rest).code = 92 := by
      rw [Bool.or_eq_true, beq_iff_eq, beq_iff_eq] at special
      rcases special with quote | slash
      · exact .inl (by rw [Scalar.code, quote]; rfl)
      · exact .inr (by rw [Scalar.code, slash]; rfl)
    have low : (Scalar.ofHead a rest).code < 0x80 := by omega
    rcases Scalar.bytes_of_code_low low with ⟨bytes, byte⟩
    rw [bytes]
    refine .pair ?_ .nil
    rintro rfl
    rw [byte] at code
    exact absurd code (by decide)
  rename_i special
  split
  · rename_i printable
    by_cases low : (Scalar.ofHead a rest).code < 0x80
    · rcases Scalar.bytes_of_code_low low with ⟨bytes, byte⟩
      have code : (Scalar.ofHead a rest).char.toNat = a.toNat := byte
      have shown : 32 ≤ a.toNat := by
        rw [isPrintable, if_pos (show (Scalar.ofHead a rest).char.toNat < 0x80 from low),
          Bool.and_eq_true, decide_eq_true_eq, code] at printable
        exact printable.1
      rw [Bool.or_eq_true, beq_iff_eq, beq_iff_eq, not_or] at special
      rw [bytes]
      refine .plain (fun marks => ?_) .nil
      simp only [List.mem_cons, List.not_mem_nil, or_false] at marks
      rcases marks with rfl | rfl | rfl | rfl
      · exact absurd shown (by decide)
      · exact absurd shown (by decide)
      · exact special.1 (Char.toNat_inj.1 code)
      · exact special.2 (Char.toNat_inj.1 code)
    · have high : ¬ a < 0x80 := by
        intro ascii
        rw [Scalar.ofHead_ascii ascii, Scalar.code_ascii ascii] at low
        exact low ascii
      apply inside_of_forall
      intro b mem marks
      have := Scalar.high_ofHead high rest b mem
      simp only [List.mem_cons, List.not_mem_nil, or_false] at marks
      rcases marks with rfl | rfl | rfl | rfl <;> exact absurd this (by decide)
  · exact inside_escapeChar _

theorem inside_flatMap_quoteScalar (t : Bytes) : Inside 34 (t.scalars.flatMap quoteScalar) := by
  induction n : t.length using Nat.strongRecOn generalizing t with
  | ind n ih =>
    cases t with
    | nil => exact .nil
    | cons a rest =>
      rw [scalars_cons, List.flatMap_cons]
      refine (inside_quoteScalar a rest).append (ih _ ?_ _ rfl)
      rw [← n, List.length_drop, List.length_cons]
      omega

/-- What stands between two marks of ASCII, character by character. -/
theorem scalars_between {mark : UInt8} (ascii : mark < 0x80) (s : Bytes) :
    scalars (mark :: (s ++ [mark])) = Scalar.ascii mark :: (s.scalars ++ [Scalar.ascii mark]) := by
  rw [scalars_cons_ascii ascii, scalars_append_ascii s ascii, scalars_cons_ascii ascii, scalars_nil]

theorem spelled_quote (t : Bytes) : Literal.Spelled (.text t.quote.scalars) t.quote.scalars := by
  have split : t.quote.scalars = _ := scalars_between (by decide) (t.scalars.flatMap quoteScalar)
  rw [split]
  exact .text rfl ((inside_flatMap_quoteScalar t).quotable (by decide)) rfl

theorem spelled_quotePattern {p : Bytes} (line : ∀ b ∈ p, b ≠ 10 ∧ b ≠ 13) (h : Paired p) :
    Literal.Spelled (.pattern (escapeQuotes p).scalars) (quotePattern p).scalars := by
  rw [quotePattern, scalars_between (by decide)]
  exact .pattern rfl ((inside_escapeQuotes line h).quotable (by decide)) rfl

/-! ### Recognising and reading back -/

/-- A pattern that takes a text as a whole accepts it. -/
theorem accepts_of_mem {r : Rule} (sound : Sound r) (accepted : Accepted r)
    (free : r.expr.isFree = true) (avoids : Avoids 10 r) {t : Bytes}
    (mem : t.scalars ∈ r.expr.language) : r.accepts t = .ok true :=
  (sound.matches_iff accepted (Bootstrap.isStandard_of_mem sound free mem) (avoids.conditionFree sound) t).2 mem

theorem accepts_quotedText {t : Bytes} (spelled : Literal.Spelled (.text t.scalars) t.scalars) :
    Bootstrap.quotedText.accepts t = .ok true := by
  have simple := Bootstrap.simple_of_getElem 5 rfl
  have free : Bootstrap.quotedText.expr.isFree = true := by
    rw [show Bootstrap.quotedText.expr = _ from simple.expr_eq Bootstrap.tag]
    decide
  exact accepts_of_mem (sound_regex (simple.accepted Bootstrap.tag)) (simple.accepted Bootstrap.tag) free
    (Bootstrap.avoids_of_getElem 5 rfl (by decide)) (mem_quotedText.2 spelled)

theorem accepts_quotedPattern {t : Bytes} {inside : List Scalar}
    (spelled : Literal.Spelled (.pattern inside) t.scalars) :
    Bootstrap.quotedPattern.accepts t = .ok true := by
  have simple := Bootstrap.simple_of_getElem 6 rfl
  have free : Bootstrap.quotedPattern.expr.isFree = true := by
    rw [show Bootstrap.quotedPattern.expr = _ from simple.expr_eq Bootstrap.tag]
    decide
  exact accepts_of_mem (sound_regex (simple.accepted Bootstrap.tag)) (simple.accepted Bootstrap.tag) free
    (Bootstrap.avoids_of_getElem 6 rfl (by decide)) (mem_quotedPattern.2 ⟨inside, spelled⟩)

/-- The rule for literals has a tree for every text. -/
theorem exists_literal (text : Bytes) :
    ∃ node, Bootstrap.literal.matcher.descend text 0 = .ok node ∧ node.text = text ∧
      Grown Bootstrap.literal node := by
  have ready : Ready Bootstrap.literal := by
    apply Bootstrap.ready_token.entry (e := ⟨"literal", Bootstrap.literal⟩) _ (by decide)
    have named : (⟨"literal", Bootstrap.literal⟩ : Entry Rule) ∈
        (reach Bootstrap.token.entries).filter Entry.isNamed := by
      rw [Bootstrap.named_token]
      simp
    exact (List.mem_filter.1 named).1
  rcases ready.descend text 0 with ⟨node, built⟩
  have text_eq := (ready.sound.text_of_descend (by intro _ _ _ eq; cases eq) built).1
  exact ⟨node, built, text_eq, text, 0, node, node.name, built, by cases node; rfl⟩

variable {c : Context} {base : Int} {text : Bytes} {l : Literal} {e : Entry Rule}

/-- A literal that stands for something is read to it, by itself and as the only token of a value. -/
theorem read_literal (bootstrap : c.grammar = .bootstrap) (spelled : l.Spelled text.scalars)
    (known : l.meaning c.registry c.tag = some e) :
    (∃ node, Bootstrap.literal.matcher.descend text 0 = .ok node ∧ node.text = text ∧
        readLiteral c base node = .ok e) ∧
      readValue c text base = .ok (.combine c.tag .seq [e]) := by
  constructor
  · rcases exists_literal text with ⟨node, built, same, grown⟩
    have read : (readLiteral c base node).toOption = some e :=
      (toOption_readLiteral bootstrap grown (same ▸ spelled)).trans known
    exact ⟨node, built, same, eq_ok_of_toOption read⟩
  · have row : SpelledRow Bootstrap.maxDepth [.literal l none] text.scalars :=
      .last ⟨text.scalars, [], (List.append_nil _).symm, spelled, rfl⟩
    have meaning : Phrase.rowMeaning c.registry c.tag [.literal l none] = some [e] := by
      rw [rowMeaning_eq, List.mapM_cons, Phrase.meaning, known]
      rfl
    have read := toOption_readValue base bootstrap row
    rw [valueRule, meaning] at read
    exact eq_ok_of_toOption read

/-- Every text between double quotes, and every pattern of pairs between single quotes, is recognised
    as a whole and read back to its bytes. -/
theorem literal_written (bootstrap : c.grammar = .bootstrap) (base : Int) :
    (∀ t : Bytes,
      Bootstrap.quotedText.accepts t.quote = .ok true ∧
      (∃ node, Bootstrap.literal.matcher.descend t.quote 0 = .ok node ∧ node.text = t.quote ∧
        readLiteral c base node = .ok ⟨[], .text c.tag t⟩) ∧
      readValue c t.quote base = .ok (.combine c.tag .seq [⟨[], .text c.tag t⟩])) ∧
    ∀ p : Bytes, (∀ b ∈ p, b ≠ 10 ∧ b ≠ 13) → Paired p →
      Bootstrap.quotedPattern.accepts (quotePattern p) = .ok true ∧
      (∃ node, Bootstrap.literal.matcher.descend (quotePattern p) 0 = .ok node ∧
        node.text = quotePattern p ∧ readLiteral c base node = .ok ⟨[], .regex c.tag p⟩) ∧
      readValue c (quotePattern p) base = .ok (.combine c.tag .seq [⟨[], .regex c.tag p⟩]) := by
  constructor
  · intro t
    have spelled := spelled_quote t
    have meaning : (Literal.text t.quote.scalars).meaning c.registry c.tag =
        some ⟨[], .text c.tag t⟩ := by
      rw [Literal.meaning, ofScalars_scalars, unquote?_quote]
      rfl
    exact ⟨accepts_quotedText spelled, read_literal bootstrap spelled meaning⟩
  · intro p line paired
    have spelled := spelled_quotePattern line paired
    have meaning : (Literal.pattern (escapeQuotes p).scalars).meaning c.registry c.tag =
        some ⟨[], .regex c.tag p⟩ := by
      rw [Literal.meaning, ofScalars_scalars, unescapePattern_escapeQuotes paired]
    exact ⟨accepts_quotedPattern spelled, read_literal bootstrap spelled meaning⟩

/-- A reader of definitions at the start of an empty source. -/
def Sample.reader : Context := ⟨.bootstrap, .empty, .start "rules" [], [], 7⟩

/-- A text of a quote, a backslash, a line break and a byte that is not UTF-8, and a pattern with an
    escape and a quote. -/
theorem literal_written_sample :
    Sample.reader.grammar = .bootstrap ∧
      readValue Sample.reader (Bytes.quote [34, 92, 10, 255]) 0 =
        .ok (.combine 7 .seq [⟨[], .text 7 [34, 92, 10, 255]⟩]) ∧
      readValue Sample.reader (quotePattern [92, 100, 39]) 0 =
        .ok (.combine 7 .seq [⟨[], .regex 7 [92, 100, 39]⟩]) := by
  have written := literal_written (c := Sample.reader) rfl 0
  have paired : Paired [92, 100, 39] := .pair (by decide) (.plain (by decide) .nil)
  exact ⟨rfl, (written.1 _).2.2, (written.2 _ (by decide) paired).2.2⟩

end Definition

end Rulebook

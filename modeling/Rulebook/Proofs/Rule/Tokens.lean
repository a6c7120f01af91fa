import Mathlib.Tactic.Common
import Rulebook.Proofs.Pattern.Nesting
import Rulebook.Proofs.Pattern.Scanning
import Rulebook.Rule.Walk

/-!
# Tokens of a rule

The pattern of a rule is pasted together from the patterns of its entries. Its tokens are those of
its entries in the same order, between the tokens of the combinator: `Rule.tokens` says so without
the pattern, and `Rule.scan_assemble` that the pattern is scanned to just these tokens.
-/

namespace Rulebook

open Pattern

namespace Rule

/-! ### Texts -/

theorem isMeta_iff (b : UInt8) :
    isMeta b = [92, 46, 43, 42, 63, 40, 41, 124, 91, 93, 123, 125, 94, 36].contains b := by
  have : ("\\.+*?()|[]\x7b\x7d^$" : Bytes) =
      [92, 46, 43, 42, 63, 40, 41, 124, 91, 93, 123, 125, 94, 36] := by decide
  rw [isMeta, this]

theorem lt_of_isMeta {b : UInt8} (h : isMeta b = true) : b < 0x80 := by
  rw [isMeta_iff] at h
  simp only [List.contains_eq_mem, List.mem_cons, List.not_mem_nil, or_false,
    decide_eq_true_eq] at h
  rcases h with rfl | rfl | rfl | rfl | rfl | rfl | rfl | rfl | rfl | rfl | rfl | rfl | rfl | rfl
  all_goals decide

theorem escape_append (p q : Bytes) : escape (p ++ q) = escape p ++ escape q :=
  List.flatMap_append

@[simp] theorem escape_nil : escape [] = [] := rfl

theorem escape_cons (b : UInt8) (p : Bytes) :
    escape (b :: p) = (if isMeta b then [92, b] else [b]) ++ escape p :=
  List.flatMap_cons

theorem not_isMeta_of_high {b : UInt8} (h : 0x80 ≤ b.toNat) : isMeta b = false := by
  by_contra isMeta
  have low : b.toNat < 0x80 := lt_of_isMeta (by simpa using isMeta)
  omega

theorem escape_high {p : Bytes} (h : ∀ b ∈ p, 0x80 ≤ b.toNat) : escape p = p := by
  induction p with
  | nil => rfl
  | cons b p ih =>
    rw [escape_cons, not_isMeta_of_high (h b (by simp)), ih fun c hc => h c (by simp [hc])]
    rfl

theorem take_escape {n : Nat} {p : Bytes} (h : ∀ b ∈ (escape p).take n, 0x80 ≤ b.toNat) :
    p.take n = (escape p).take n := by
  induction n generalizing p with
  | zero => rfl
  | succ n ih =>
    cases p with
    | nil => rfl
    | cons b p =>
      rw [escape_cons] at h ⊢
      split at h
      · have := h 92 (by simp)
        exact absurd this (by decide)
      · rw [if_neg ‹_›]
        simp only [List.cons_append, List.nil_append, List.take_succ_cons] at h ⊢
        rw [ih fun c hc => h c (by simp [hc])]

/-- An escape does not stand inside a character. -/
theorem ofHead_escape (b : UInt8) (p : Bytes) : Scalar.ofHead b (escape p) = Scalar.ofHead b p := by
  have several : Scalar.several? b (escape p) = Scalar.several? b p := by
    cases read : Scalar.several? b p with
    | some s =>
      obtain ⟨count, led⟩ := Scalar.several?_led read
      rw [← List.take_append_drop count p, escape_append, escape_high led.high]
      exact led.decided _
    | none =>
      cases read' : Scalar.several? b (escape p) with
      | none => rfl
      | some s =>
        obtain ⟨count, led⟩ := Scalar.several?_led read'
        have := led.decided (p.drop count)
        rw [← take_escape led.high, List.take_append_drop, read] at this
        exact absurd this (by simp)
  simp only [Scalar.ofHead, several]

/-- A character of a text as it stands in a pattern. -/
def escapeScalar (c : Scalar) : List Scalar :=
  if c.bytes.any isMeta then [Scalar.ascii 92, c] else [c]

theorem escapeScalar_high {b : UInt8} (h : ¬ b < 0x80) (p : Bytes) :
    escapeScalar (Scalar.ofHead b p) = [Scalar.ofHead b p] := by
  unfold escapeScalar
  rw [if_neg]
  simp only [List.any_eq_true, not_exists, not_and]
  intro c hc
  simp [not_isMeta_of_high (Scalar.high_ofHead h p c hc)]

theorem scalars_escape (p : Bytes) : (escape p).scalars = p.scalars.flatMap escapeScalar := by
  induction hn : p.length using Nat.strongRecOn generalizing p with
  | _ n ih =>
    cases p with
    | nil => rfl
    | cons b p =>
      subst hn
      by_cases low : b < 0x80
      · rw [Bytes.scalars_cons_ascii low, List.flatMap_cons, ← ih p.length (by simp) p rfl,
          escape_cons, escapeScalar]
        by_cases isMeta : isMeta b = true
        · simp [isMeta, Scalar.ascii, Bytes.scalars_cons_ascii low,
            Bytes.scalars_cons_ascii (show (92 : UInt8) < 0x80 by decide)]
        · simp [isMeta, Scalar.ascii, Bytes.scalars_cons_ascii low]
      · obtain ⟨bytes, pos, le⟩ := Scalar.bytes_ofHead b p
        have high := Scalar.high_ofHead low p
        rw [bytes] at high
        have tail : (escape p).drop ((Scalar.ofHead b p).width - 1) =
            escape (p.drop ((Scalar.ofHead b p).width - 1)) := by
          conv_lhs => rw [← List.take_append_drop ((Scalar.ofHead b p).width - 1) p]
          rw [escape_append, escape_high fun c hc => high c (by simp [hc]),
            List.drop_left' (by simp; omega)]
        rw [escape_cons, not_isMeta_of_high (high b (by simp))]
        simp only [Bool.false_eq_true, if_false, List.cons_append, List.nil_append]
        rw [Bytes.scalars_cons, ofHead_escape, tail, Bytes.scalars_cons, List.flatMap_cons,
          escapeScalar_high low, ih _ (Nat.lt_succ_of_le (List.drop_sublist _ _).length_le) _ rfl]
        rfl

/-! ### Scanning a text -/

open Token (scan next scan_cons paren)

theorem next_plain {c : Scalar} (valid : c.isStray = false)
    (plain : c.code ∉ [40, 124, 41, 94, 36, 46, 91, 42, 43, 63, 123, 92]) (s : List Scalar) :
    next c s = ([.ok (.char c.code)], s) := by
  unfold next
  split <;> rename_i h
  case h_13 => rw [if_neg (by simp [valid])]
  all_goals
    exfalso
    refine plain ?_
    rw [Scalar.code, h]
    decide

theorem isMeta_of_special {b : UInt8}
    (h : b.toNat ∈ [40, 124, 41, 94, 36, 46, 91, 42, 43, 63, 123, 92]) : isMeta b = true := by
  rw [isMeta_iff, List.contains_iff_mem]
  simp only [List.mem_cons, List.not_mem_nil, or_false, ← UInt8.toNat_inj] at h ⊢
  rcases h with h | h | h | h | h | h | h | h | h | h | h | h <;> simp [h]

theorem next_escaped {b : UInt8} (h : isMeta b = true) (s : List Scalar) :
    next (Scalar.ascii 92) (Scalar.ascii b :: s) = ([.ok (.char (Scalar.ascii b).code)], s) := by
  rw [isMeta_iff] at h
  simp only [List.contains_eq_mem, List.mem_cons, List.not_mem_nil, or_false,
    decide_eq_true_eq] at h
  rcases h with rfl | rfl | rfl | rfl | rfl | rfl | rfl | rfl | rfl | rfl | rfl | rfl | rfl | rfl
  all_goals rfl

/-- A character of a text is scanned to the token of that character. -/
theorem scan_escapeScalar {b : UInt8} {p : Bytes} (valid : (Scalar.ofHead b p).isStray = false)
    (s : List Scalar) :
    scan (escapeScalar (Scalar.ofHead b p) ++ s) =
      .ok (.char (Scalar.ofHead b p).code) :: scan s := by
  by_cases low : b < 0x80
  · rw [Scalar.ofHead_ascii low] at valid ⊢
    unfold escapeScalar
    by_cases isMeta : isMeta b = true
    · have : (Scalar.ascii b).bytes.any Rule.isMeta = true := by simpa [Scalar.ascii] using isMeta
      rw [if_pos this, List.cons_append, List.cons_append, List.nil_append, scan_cons,
        next_escaped isMeta]
      rfl
    · have : ¬ (Scalar.ascii b).bytes.any Rule.isMeta = true := by
        simpa [Scalar.ascii] using isMeta
      rw [if_neg this, List.cons_append, List.nil_append, scan_cons, next_plain valid]
      · rfl
      · rw [Scalar.code_ascii low]
        intro mem
        exact isMeta (isMeta_of_special mem)
  · have high := Scalar.code_ofHead low p
    rw [escapeScalar_high low, List.cons_append, List.nil_append, scan_cons, next_plain valid]
    · rfl
    · intro mem
      simp only [List.mem_cons, List.not_mem_nil, or_false] at mem
      omega

/-! ### What is left to scan -/

/-- True of a text that does not start with a question mark. -/
def Fresh (s : List Scalar) : Prop := s.head?.map Scalar.char ≠ some '?'

/-- A condition on what is left to scan that stays true when tokens are taken off, and that stray
    bytes do not meet. -/
structure Lasting (Q : List Scalar → Prop) : Prop where
  take : ∀ (tokens : List Token) {s rest : List Scalar}, rest <:+ s →
    (∀ y, Fresh y → scan (s ++ y) = tokens.map .ok ++ scan (rest ++ y)) → Q s → Q rest
  valid : ∀ {c : Scalar} {s : List Scalar}, Q (c :: s) → c.isStray = false

/-- The tokens of a text. -/
def textTokens (p : Bytes) : List Token := p.scalars.map fun c => .char c.code

theorem Lasting.valid_head {Q : List Scalar → Prop} (lasting : Lasting Q) {b : UInt8} {p : Bytes}
    {s : List Scalar} (h : Q (escapeScalar (Scalar.ofHead b p) ++ s)) :
    (Scalar.ofHead b p).isStray = false := by
  by_cases low : b < 0x80
  · rw [Scalar.ofHead_ascii low]
    exact Scalar.isStray_ascii low
  · rw [escapeScalar_high low] at h
    exact lasting.valid h

theorem scan_text {Q : List Scalar → Prop} (lasting : Lasting Q) (p : Bytes) (s : List Scalar)
    (h : Q ((escape p).scalars ++ s)) :
    scan ((escape p).scalars ++ s) = (textTokens p).map .ok ++ scan s ∧ Q s := by
  rw [scalars_escape] at h ⊢
  unfold textTokens
  induction hn : p.length using Nat.strongRecOn generalizing p with
  | _ n ih =>
    cases p with
    | nil => exact ⟨rfl, h⟩
    | cons b p =>
      rw [Bytes.scalars_cons, List.flatMap_cons, List.append_assoc] at h ⊢
      have valid := lasting.valid_head h
      have rest := lasting.take [.char (Scalar.ofHead b p).code]
        (List.suffix_append _ _) (fun y _ => by rw [List.append_assoc, scan_escapeScalar valid]; rfl) h
      obtain ⟨scanned, q⟩ := ih (p.drop ((Scalar.ofHead b p).width - 1)).length (by
        subst hn
        exact Nat.lt_succ_of_le (List.drop_sublist _ _).length_le) _ rest rfl
      refine ⟨?_, q⟩
      rw [scan_escapeScalar valid, scanned]
      rfl

/-- A text whose pattern is scanned without a stray byte is UTF-8, whatever follows. -/
theorem isUtf8_of_scanned {Q : List Scalar → Prop} (lasting : Lasting Q) (p : Bytes) {s : List Scalar}
    (h : Q ((escape p).scalars ++ s)) : p.isUtf8 = true := by
  rw [scalars_escape] at h
  unfold Bytes.isUtf8
  induction hn : p.length using Nat.strongRecOn generalizing p with
  | _ n ih =>
    cases p with
    | nil => rfl
    | cons b p =>
      rw [Bytes.scalars_cons, List.flatMap_cons, List.append_assoc] at h
      have valid := lasting.valid_head h
      have rest := lasting.take [.char (Scalar.ofHead b p).code] (List.suffix_append _ _)
        (fun y _ => by rw [List.append_assoc, scan_escapeScalar valid]; rfl) h
      rw [Bytes.scalars_cons, List.all_cons, valid]
      exact ih (p.drop ((Scalar.ofHead b p).width - 1)).length (by
        subst hn
        exact Nat.lt_succ_of_le (List.drop_sublist _ _).length_le) _ rest rfl

/-! ### Tokens of a rule -/

/-- The tokens of a pattern as far as they have no fault. -/
def leafTokens (source : Bytes) : List Token := (scan source.scalars).filterMap Except.toOption

/-- The repetition that a combinator writes after its group. -/
def repetition (how : Combinator) : List Token :=
  match how with
  | .seq => []
  | .oneOf => []
  | .optional => [.repeated .opt false how.quantifier]
  | .zeroOrMore isLazy => [.repeated .star isLazy how.quantifier]
  | .oneOrMore isLazy => [.repeated .plus isLazy how.quantifier]

/-- The literal of an anonymous text. -/
def literal? (name : Bytes) : Rule → Option Bytes
  | text _ literal => if name.isEmpty then some literal else none
  | _ => none

/-- True if an entry has a group of its own inside a larger pattern. -/
def isGrouped (name : Bytes) (kind : Kind) : Bool := !name.isEmpty || kind == .regex

/-- The token that opens the group of an entry. -/
def openToken (named : Bool) (name : Bytes) : Token :=
  if name.isEmpty then .enclose [] else .capture (if named then name else [])

/-- The tokens of an entry inside a larger pattern, given those of its rule. -/
def embedTokens (named : Bool) (name : Bytes) (kind : Kind) (tokens : List Token) : List Token :=
  if isGrouped name kind then openToken named name :: (tokens ++ [.close]) else tokens

mutual

/-- The tokens of the pattern of a rule, with or without the names of its entries. -/
def tokens (named : Bool) : Rule → List Token
  | regex _ source => leafTokens source
  | text _ literal => textTokens literal
  | combine _ how entries =>
      .capture [] ::
        ((if how = .oneOf then choiceTokens named entries else seqTokens named [] entries) ++
          .close :: repetition how)

/-- The tokens of entries one after another. Texts that stand side by side are one text, because
    they may share a character. -/
def seqTokens (named : Bool) (pending : Bytes) : List (Entry Rule) → List Token
  | [] => textTokens pending
  | ⟨name, r⟩ :: rest =>
      match literal? name r with
      | some literal => seqTokens named (pending ++ literal) rest
      | none =>
          textTokens pending ++
            (embedTokens named name r.kind (tokens named r) ++ seqTokens named [] rest)

/-- The tokens of entries with bars between them. -/
def choiceTokens (named : Bool) : List (Entry Rule) → List Token
  | [] => []
  | ⟨name, r⟩ :: rest =>
      embedTokens named name r.kind (tokens named r) ++
        if rest.isEmpty then [] else .bar :: choiceTokens named rest

end

/-! ### Marks of groups -/

/-- An opening parenthesis starts a group, unless a question mark follows. -/
theorem next_open {s : List Scalar} (h : Fresh s) :
    next (Scalar.ascii 40) s = ([.ok (.capture [])], s) := by
  cases s with
  | nil => rfl
  | cons c s =>
    have : c.char ≠ '?' := by simpa [Fresh] using h
    simp [next, Scalar.ascii, Token.group, this, Token.alone]

theorem next_enclose (s : List Scalar) :
    next (Scalar.ascii 40) (Scalar.ascii 63 :: Scalar.ascii 58 :: s) =
      ([.ok (.enclose [])], s) := by
  match s with
  | [] => rfl
  | [_] => rfl
  | _ :: _ :: _ => rfl

theorem word_byte {b : UInt8} (h : Bytes.isWord b = true) :
    b < 0x80 ∧ Scalar.isWordChar (Scalar.ascii b).char = true ∧ (Scalar.ascii b).char ≠ '>' := by
  have all : ∀ n : Fin 256, Bytes.isWord (UInt8.ofNat n) = true →
      UInt8.ofNat n < 0x80 ∧ Scalar.isWordChar (Scalar.ascii (UInt8.ofNat n)).char = true ∧
        (Scalar.ascii (UInt8.ofNat n)).char ≠ '>' := by
    decide +kernel
  have := all ⟨b.toNat, b.toNat_lt⟩
  simp only [UInt8.ofNat_toNat] at this
  exact this h

theorem scalars_name {name : Bytes} (h : name.all Bytes.isWord = true) :
    name.scalars = name.map Scalar.ascii := by
  have low : ∀ b ∈ name, b < 0x80 := fun b hb => (word_byte (List.all_eq_true.1 h b hb)).1
  simpa using Bytes.scalars_ascii_append low []

theorem cutAt?_name {name : Bytes} (h : name.all Bytes.isWord = true) (s : List Scalar) :
    Token.cutAt? '>' (name.map Scalar.ascii ++ Scalar.ascii 62 :: s) =
      some (name.map Scalar.ascii, s) := by
  induction name with
  | nil => rfl
  | cons b name ih =>
    simp only [List.all_cons, Bool.and_eq_true] at h
    simp [Token.cutAt?, (word_byte h.1).2.2, ih h.2]

theorem checkUtf8_name {name : Bytes} (h : name.all Bytes.isWord = true) :
    Token.checkUtf8 (name.map Scalar.ascii) = .ok () := by
  induction name with
  | nil => rfl
  | cons b name ih =>
    simp only [List.all_cons, Bool.and_eq_true] at h
    simp [Token.checkUtf8, Scalar.isStray_ascii (word_byte h.1).1, ih h.2]

theorem namedGroup_name {name : Bytes} (h : isValidName name = true) (mark s : List Scalar) :
    Token.namedGroup mark (name.map Scalar.ascii ++ Scalar.ascii 62 :: s) =
      .ok (.capture name, s) := by
  simp only [isValidName, Bool.and_eq_true, Bool.not_eq_true', List.isEmpty_eq_false_iff] at h
  have all : (name.map Scalar.ascii).all Token.isNameChar = true := by
    rw [List.all_map, List.all_eq_true]
    intro b hb
    exact (word_byte (List.all_eq_true.1 h.2 b hb)).2.1
  have bytes : Bytes.ofScalars (name.map Scalar.ascii) = name := by
    rw [← scalars_name h.2, Bytes.ofScalars_scalars]
  simp [Token.namedGroup, cutAt?_name h.2, checkUtf8_name h.2, h.1, all, bytes]

theorem next_named {name : Bytes} (h : isValidName name = true) (s : List Scalar) :
    next (Scalar.ascii 40)
        (Scalar.ascii 63 :: Scalar.ascii 80 :: Scalar.ascii 60 ::
          (name.scalars ++ Scalar.ascii 62 :: s)) =
      ([.ok (.capture name)], s) := by
  have group := namedGroup_name h
    [Scalar.ascii 40, Scalar.ascii 63, Scalar.ascii 80, Scalar.ascii 60] s
  simp only [isValidName, Bool.and_eq_true, Bool.not_eq_true', List.isEmpty_eq_false_iff] at h
  rw [scalars_name h.2]
  cases name with
  | nil => exact absurd rfl h.1
  | cons b name =>
    change Token.alone (Token.namedGroup
      [Scalar.ascii 40, Scalar.ascii 63, Scalar.ascii 80, Scalar.ascii 60]
      ((b :: name).map Scalar.ascii ++ Scalar.ascii 62 :: s)) = _
    rw [group]
    rfl

/-! ### Scanning the pattern of a rule -/

/-- What a leaf needs to be scanned inside a larger pattern as it is by itself. -/
structure Pasteable (Q : List Scalar → Prop) (source : Bytes) : Prop where
  fresh : source.head? ≠ some 63
  stops : ∀ k : Bytes, Q (source.scalars ++ paren :: k.scalars) →
    scan (source.scalars ++ paren :: k.scalars) =
        (leafTokens source).map .ok ++ scan (paren :: k.scalars) ∧
      Q (paren :: k.scalars)

/-- An entry whose name can be scanned, and whose rule can be if it is a leaf. -/
def Scannable (Q : List Scalar → Prop) (e : Entry Rule) : Prop :=
  (e.name = [] ∨ isValidName e.name = true) ∧
    ∀ tag source, e.rule = regex tag source → Pasteable Q source

/-- What may follow the pattern of a rule so that the pattern is scanned as it is by itself. -/
def MayFollow (k : Bytes) : Rule → Prop
  | regex _ _ => ∃ t, k = 41 :: t
  | text _ _ => ∀ a t, k = a :: t → a < 0x80
  | combine _ _ _ => k.head? ≠ some 63

/-- All entries that can be reached from a list of entries. -/
def reach (entries : List (Entry Rule)) : List (Entry Rule) :=
  (visitEntries (fun _ => .descend) entries).visited

mutual

theorem stopped_visitEntry (name : Bytes) :
    ∀ r, (visitEntry (fun _ => .descend) name r).stopped = false
  | regex _ _ => rfl
  | text _ _ => rfl
  | combine _ _ entries => stopped_visitEntries entries

theorem stopped_visitEntries :
    ∀ entries, (visitEntries (fun _ => .descend) entries).stopped = false
  | [] => rfl
  | ⟨name, r⟩ :: rest => by
      simp [visitEntries, stopped_visitEntry name r, stopped_visitEntries rest]

end

theorem visitEntry_descend (name : Bytes) (r : Rule) :
    visitEntry (fun _ => .descend) name r = ⟨⟨name, r⟩ :: reach r.entries, false⟩ := by
  cases r with
  | regex tag source => rfl
  | text tag literal => rfl
  | combine tag how entries =>
    have := stopped_visitEntries entries
    simp [visitEntry, Walk.visiting, reach, Rule.entries, this]

theorem reach_cons (name : Bytes) (r : Rule) (rest : List (Entry Rule)) :
    reach (⟨name, r⟩ :: rest) = ⟨name, r⟩ :: (reach r.entries ++ reach rest) := by
  simp [reach, visitEntries, visitEntry_descend]

theorem mem_reach {e : Entry Rule} {entries : List (Entry Rule)} (mem : e ∈ entries) :
    e ∈ reach entries := by
  induction entries with
  | nil => nomatch mem
  | cons d rest ih =>
    rw [reach_cons]
    obtain rfl | later := List.mem_cons.1 mem
    · exact List.mem_cons_self ..
    · exact List.mem_cons_of_mem _ (List.mem_append_right _ (ih later))

mutual

/-- What holds of a rule if it holds of the rules of its entries holds of all rules. -/
theorem of_entries {P : Rule → Prop} (step : ∀ r : Rule, (∀ e ∈ r.entries, P e.rule) → P r) :
    ∀ r : Rule, P r
  | regex _ _ => step _ nofun
  | text _ _ => step _ nofun
  | combine _ _ entries => step _ (of_entries_all step entries)

theorem of_entries_all {P : Rule → Prop} (step : ∀ r : Rule, (∀ e ∈ r.entries, P e.rule) → P r) :
    ∀ entries : List (Entry Rule), ∀ e ∈ entries, P e.rule
  | [], _, mem => nomatch mem
  | ⟨_, r⟩ :: rest, e, mem =>
      (List.mem_cons.1 mem).elim (fun same => same ▸ of_entries step r)
        (of_entries_all step rest e)

end

theorem fresh_scalars {k : Bytes} (h : k.head? ≠ some 63) : Fresh k.scalars := by
  cases k with
  | nil => simp [Fresh]
  | cons a k =>
    have other : a ≠ 63 := by simpa using h
    rw [Bytes.scalars_cons]
    simp only [Fresh, List.head?_cons, Option.map_some, ne_eq, Option.some.injEq]
    intro mark
    have code : (Scalar.ofHead a k).code = 63 := by rw [Scalar.code, mark]; rfl
    by_cases low : a < 0x80
    · rw [Scalar.ofHead_ascii low, Scalar.code_ascii low] at code
      exact other (UInt8.toNat_inj.1 code)
    · have := Scalar.code_ofHead low k
      omega

theorem Fresh.append {s y : List Scalar} (h : Fresh s) (h' : Fresh y) : Fresh (s ++ y) := by
  cases s with
  | nil => exact h'
  | cons c s => exact h

theorem head?_escape (p : Bytes) : (escape p).head? ≠ some 63 := by
  cases p with
  | nil => simp [escape]
  | cons b p =>
    rw [escape_cons]
    split
    · simp
    · rename_i plain
      simp only [List.cons_append, List.nil_append, List.head?_cons, ne_eq, Option.some.injEq]
      rintro rfl
      exact plain (by rw [isMeta_iff]; decide)

/-! ### Marks of repetitions -/

theorem repetition_fresh (count : Count) (mark : List Scalar) {s : List Scalar} (h : Fresh s) :
    Token.repetition count mark s = (.repeated count false (Bytes.ofScalars mark), s) := by
  cases s with
  | nil => rfl
  | cons c s =>
    have : c.char ≠ '?' := by simpa [Fresh] using h
    simp [Token.repetition, this]

/-- The bytes of what a combinator writes after its group. -/
theorem quantifier_bytes (how : Combinator) : how.quantifier =
    match how with
    | .seq => []
    | .oneOf => []
    | .optional => [63]
    | .zeroOrMore false => [42]
    | .zeroOrMore true => [42, 63]
    | .oneOrMore false => [43]
    | .oneOrMore true => [43, 63] := by
  cases how with
  | seq => rfl
  | oneOf => rfl
  | optional => decide
  | zeroOrMore isLazy => cases isLazy <;> decide
  | oneOrMore isLazy => cases isLazy <;> decide

theorem scalars_quantifier (how : Combinator) (k : Bytes) :
    (how.quantifier ++ k).scalars = how.quantifier.map Scalar.ascii ++ k.scalars := by
  refine Bytes.scalars_ascii_append ?_ k
  rw [quantifier_bytes]
  split <;> simp

theorem scan_quantifier (how : Combinator) {s : List Scalar} (h : Fresh s) :
    scan (how.quantifier.map Scalar.ascii ++ s) = (repetition how).map .ok ++ scan s := by
  have greedy {b : UInt8} {count : Count} (mark : ∀ s, next (Scalar.ascii b) s =
      Token.alone (.ok (Token.repetition count [Scalar.ascii b] s))) :
      scan (Scalar.ascii b :: s) = .ok (.repeated count false [b]) :: scan s := by
    rw [scan_cons, mark, repetition_fresh _ _ h]
    rfl
  have reluctant {b : UInt8} {count : Count} (mark : ∀ s, next (Scalar.ascii b) s =
      Token.alone (.ok (Token.repetition count [Scalar.ascii b] s))) :
      scan (Scalar.ascii b :: Scalar.ascii 63 :: s) =
        .ok (.repeated count true [b, 63]) :: scan s := by
    rw [scan_cons, mark]
    rfl
  cases how with
  | seq => rfl
  | oneOf => rfl
  | optional =>
    rw [repetition, quantifier_bytes]
    exact greedy fun _ => rfl
  | zeroOrMore isLazy =>
    rw [repetition, quantifier_bytes]
    cases isLazy with
    | false => exact greedy fun _ => rfl
    | true => exact reluctant fun _ => rfl
  | oneOrMore isLazy =>
    rw [repetition, quantifier_bytes]
    cases isLazy with
    | false => exact greedy fun _ => rfl
    | true => exact reluctant fun _ => rfl

/-! ### Marks of entries -/

/-- What stands before the pattern of an entry that has a group of its own. -/
def opening (named : Bool) (name : Bytes) : Bytes :=
  if name.isEmpty then [40, 63, 58] else if named then [40, 63, 80, 60] ++ name ++ [62] else [40]

theorem embed_bytes (named : Bool) (name : Bytes) (kind : Kind) (p : Bytes) :
    embed named name kind p =
      if isGrouped name kind then opening named name ++ (p ++ [41]) else p := by
  have marks : ("(" : Bytes) = [40] ∧ (")" : Bytes) = [41] ∧ ("(?:" : Bytes) = [40, 63, 58] ∧
      ("(?P<" : Bytes) = [40, 63, 80, 60] ∧ (">" : Bytes) = [62] := by
    decide
  obtain ⟨open_, close_, enclose, named_, name_⟩ := marks
  rw [embed, open_, close_, enclose, named_, name_]
  cases name with
  | nil => simp [isGrouped, opening]
  | cons b name => cases named <;> simp [isGrouped, opening]

theorem opening_ascii {named : Bool} {name : Bytes} (h : name = [] ∨ isValidName name = true) :
    ∀ b ∈ opening named name, b < 0x80 := by
  unfold opening
  split
  · simp
  · rename_i isNamed
    cases named with
    | false => simp
    | true =>
      have valid := h.resolve_left (by simpa using isNamed)
      simp only [isValidName, Bool.and_eq_true, List.all_eq_true] at valid
      simp only [if_true, List.mem_append, List.mem_cons, List.not_mem_nil, or_false]
      rintro b ((h | h) | rfl)
      · rcases h with rfl | rfl | rfl | rfl <;> decide
      · exact (word_byte (valid.2 b h)).1
      · decide

theorem scan_opening (named : Bool) {name : Bytes} (h : name = [] ∨ isValidName name = true)
    {s : List Scalar} (fresh : Fresh s) :
    scan ((opening named name).map Scalar.ascii ++ s) = .ok (openToken named name) :: scan s := by
  by_cases anonymous : name = []
  · subst anonymous
    change scan (Scalar.ascii 40 :: Scalar.ascii 63 :: Scalar.ascii 58 :: s) = _
    rw [scan_cons, next_enclose]
    rfl
  · have isNamed : name.isEmpty = false := by simpa using anonymous
    have valid := h.resolve_left anonymous
    cases named with
    | false =>
      simp only [opening, openToken, isNamed, Bool.false_eq_true, if_false, List.map_cons,
        List.map_nil, List.cons_append, List.nil_append]
      rw [scan_cons, next_open fresh]
      rfl
    | true =>
      have all : name.all Bytes.isWord = true := by
        simp only [isValidName, Bool.and_eq_true] at valid
        exact valid.2
      have next := next_named valid s
      rw [scalars_name all] at next
      simp only [opening, openToken, isNamed, Bool.false_eq_true, if_false, if_true,
        List.map_append, List.map_cons, List.map_nil, List.append_assoc, List.cons_append,
        List.nil_append]
      rw [scan_cons, next]
      rfl

/-- True if the rest is the pattern of an entry's rule, before the parenthesis that closes its
    group, at some place of a pattern. -/
def Stands (Q : List Scalar → Prop) (named : Bool) (e : Entry Rule) : Prop :=
  ∃ t : Bytes, t.head? ≠ some 63 ∧ Q (assemble named e.rule ++ 41 :: t).scalars

/-- True if the pattern of a rule is scanned to the rule's tokens wherever it may stand, so that the
    scanner comes to all named entries on the way. -/
def Scans (Q : List Scalar → Prop) (named : Bool) (r : Rule) : Prop :=
  ∀ k, MayFollow k r → Q (assemble named r ++ k).scalars →
    scan (assemble named r ++ k).scalars = (tokens named r).map .ok ++ scan k.scalars ∧
      Q k.scalars ∧ ∀ e ∈ reach r.entries, e.isNamed = true → Stands Q named e

theorem mayFollow_close (k : Bytes) (r : Rule) : MayFollow (41 :: k) r := by
  cases r with
  | regex tag source => exact ⟨k, rfl⟩
  | text tag literal =>
    rintro a t h
    cases h
    decide
  | combine tag how entries => simp [MayFollow]

theorem mayFollow_bar {name : Bytes} {r : Rule} (alone : isGrouped name r.kind = false)
    (k : Bytes) : MayFollow (124 :: k) r := by
  cases r with
  | regex tag source => simp [isGrouped, kind] at alone
  | text tag literal =>
    rintro a t h
    cases h
    decide
  | combine tag how entries => simp [MayFollow]

theorem head?_append_close {p : Bytes} (h : p.head? ≠ some 63) (k : Bytes) :
    (p ++ 41 :: k).head? ≠ some 63 := by
  cases p with
  | nil => simp
  | cons a p => simpa using h

/-! ### Starts of patterns -/

theorem assemble_combine (named : Bool) (tag : Nat) (how : Combinator)
    (entries : List (Entry Rule)) :
    assemble named (combine tag how entries) =
      40 :: (Bytes.join how.separator (assembleEntries named entries) ++ 41 :: how.quantifier) := by
  have marks : ("(" : Bytes) = [40] ∧ (")" : Bytes) = [41] := by decide
  rw [assemble, marks.1, marks.2]
  simp

theorem head?_embed (named : Bool) (name : Bytes) (r : Rule) :
    (embed named name r.kind (assemble named r)).head? ≠ some 63 := by
  rw [embed_bytes]
  by_cases grouped : isGrouped name r.kind = true
  · rw [if_pos grouped]
    have : (opening named name).head? = some 40 := by
      unfold opening
      split
      · rfl
      · cases named <;> rfl
    simp [this]
  · rw [if_neg grouped]
    cases r with
    | regex tag source => exact absurd (by simp [isGrouped, kind]) grouped
    | text tag literal => exact head?_escape literal
    | combine tag how entries => simp [assemble_combine]

theorem head?_append {p q : Bytes} (h : p.head? ≠ some 63) (h' : q.head? ≠ some 63) :
    (p ++ q).head? ≠ some 63 := by
  cases p with
  | nil => exact h'
  | cons a p => exact h

theorem head?_entries (named : Bool) (entries : List (Entry Rule)) :
    (assembleEntries named entries).flatten.head? ≠ some 63 := by
  induction entries with
  | nil => simp [assembleEntries]
  | cons e rest ih =>
    rw [assembleEntries, List.flatten_cons]
    exact head?_append (head?_embed named e.name e.rule) ih

theorem join_choice (named : Bool) (e : Entry Rule) (rest : List (Entry Rule)) :
    Bytes.join [124] (assembleEntries named (e :: rest)) =
      embed named e.name e.rule.kind (assemble named e.rule) ++
        if rest.isEmpty then [] else 124 :: Bytes.join [124] (assembleEntries named rest) := by
  cases rest with
  | nil => simp [assembleEntries, Bytes.join]
  | cons d rest => simp [assembleEntries, Bytes.join, List.intercalate]

theorem head?_choice (named : Bool) (entries : List (Entry Rule)) :
    (Bytes.join [124] (assembleEntries named entries)).head? ≠ some 63 := by
  cases entries with
  | nil => simp [assembleEntries, Bytes.join]
  | cons e rest =>
    rw [join_choice]
    refine head?_append (head?_embed named e.name e.rule) ?_
    split <;> simp

theorem separator_bytes (how : Combinator) :
    how.separator = if how = .oneOf then [124] else [] := by
  cases how with
  | oneOf => decide
  | _ => rfl

theorem join_seq (parts : List Bytes) : Bytes.join [] parts = parts.flatten := by
  unfold Bytes.join
  induction parts with
  | nil => rfl
  | cons p parts ih =>
    cases parts with
    | nil => simp
    | cons q parts => simpa [List.intercalate] using ih

theorem head?_join (named : Bool) (how : Combinator) (entries : List (Entry Rule)) :
    (Bytes.join how.separator (assembleEntries named entries)).head? ≠ some 63 := by
  rw [separator_bytes]
  split
  · exact head?_choice named entries
  · rw [join_seq]
    exact head?_entries named entries

theorem literal?_eq_none {name : Bytes} {r : Rule} (h : literal? name r = none) :
    isGrouped name r.kind = true ∨ ∃ tag how entries, r = combine tag how entries := by
  cases r with
  | regex tag source => simp [isGrouped, kind]
  | text tag literal => exact .inl (by simp_all [isGrouped, literal?])
  | combine tag how entries => simp

theorem eq_text_of_literal? {name : Bytes} {r : Rule} {literal : Bytes}
    (h : literal? name r = some literal) : name = [] ∧ ∃ tag, r = text tag literal := by
  cases r with
  | regex tag source => simp [literal?] at h
  | text tag other => simp_all [literal?]
  | combine tag how entries => simp [literal?] at h

/-- An entry that is not a text on its own starts with a parenthesis. -/
theorem embed_open (named : Bool) {name : Bytes} {r : Rule} (h : literal? name r = none) :
    ∃ p, embed named name r.kind (assemble named r) = 40 :: p := by
  rw [embed_bytes]
  by_cases grouped : isGrouped name r.kind = true
  · rw [if_pos grouped]
    unfold opening
    split
    · exact ⟨_, rfl⟩
    · cases named <;> exact ⟨_, rfl⟩
  · obtain ⟨tag, how, entries, rfl⟩ := (literal?_eq_none h).resolve_left grouped
    rw [if_neg grouped, assemble_combine]
    exact ⟨_, rfl⟩

/-- What may follow an entry that is not a text on its own. -/
theorem mayFollow_entry {name : Bytes} {r : Rule} (h : literal? name r = none) {k : Bytes}
    (follow : k.head? ≠ some 63) (alone : isGrouped name r.kind = false) : MayFollow k r := by
  obtain ⟨tag, how, entries, rfl⟩ := (literal?_eq_none h).resolve_left (by simp [alone])
  exact follow

theorem Scannable.head?_assemble {Q : List Scalar → Prop} {name : Bytes} {r : Rule}
    (h : Scannable Q ⟨name, r⟩) (named : Bool) : (assemble named r).head? ≠ some 63 := by
  cases r with
  | regex tag source => exact (h.2 tag source rfl).fresh
  | text tag literal => exact head?_escape literal
  | combine tag how entries => simp [assemble_combine]

section

variable {Q : List Scalar → Prop} (lasting : Lasting Q)

include lasting

theorem q_enclosed {front : List Scalar} {token : Token} {p k : Bytes}
    (opens : ∀ s, Fresh s → scan (front ++ s) = .ok token :: scan s)
    (start : p.head? ≠ some 63) (h : Q (front ++ (p ++ 41 :: k).scalars)) :
    Q (p ++ 41 :: k).scalars := by
  have fresh := fresh_scalars (head?_append_close start k)
  refine lasting.take [token] (List.suffix_append _ _) (fun y hy => ?_) h
  rw [List.append_assoc, opens _ (fresh.append hy)]
  rfl

/-- A group: a mark that opens it, what stands in it, and the parenthesis that closes it. -/
theorem scan_enclosed {front : List Scalar} {token : Token} {inner : List Token} {p k : Bytes}
    (opens : ∀ s, Fresh s → scan (front ++ s) = .ok token :: scan s)
    (start : p.head? ≠ some 63)
    (inside : Q (p ++ 41 :: k).scalars →
      scan (p ++ 41 :: k).scalars = inner.map .ok ++ scan (Bytes.scalars (41 :: k)) ∧
        Q (Bytes.scalars (41 :: k)))
    (h : Q (front ++ (p ++ 41 :: k).scalars)) :
    scan (front ++ (p ++ 41 :: k).scalars) =
      (token :: (inner ++ [Token.close])).map .ok ++ scan k.scalars ∧ Q k.scalars := by
  have fresh := fresh_scalars (head?_append_close start k)
  have closes : Bytes.scalars (41 :: k) = Scalar.ascii 41 :: k.scalars :=
    Bytes.scalars_cons_ascii (by decide) k
  obtain ⟨scanned, q⟩ := inside (q_enclosed lasting opens start h)
  rw [closes] at scanned q
  have rest := lasting.take [.close] (List.suffix_cons _ _)
    (fun y _ => by rw [List.cons_append, scan_cons]; rfl) q
  refine ⟨?_, rest⟩
  rw [opens _ fresh, scanned, scan_cons]
  simp
  rfl

theorem scan_repetition (how : Combinator) {k : Bytes} (follow : k.head? ≠ some 63)
    (h : Q (how.quantifier ++ k).scalars) :
    scan (how.quantifier ++ k).scalars = (repetition how).map .ok ++ scan k.scalars ∧
      Q k.scalars := by
  have fresh := fresh_scalars follow
  rw [scalars_quantifier] at h ⊢
  refine ⟨scan_quantifier how fresh, ?_⟩
  refine lasting.take (repetition how) (List.suffix_append _ _) (fun y hy => ?_) h
  rw [List.append_assoc, scan_quantifier how (fresh.append hy)]

theorem scan_embed {named : Bool} {name : Bytes} {r : Rule} {k : Bytes}
    (valid : name = [] ∨ isValidName name = true) (start : (assemble named r).head? ≠ some 63)
    (body : Scans Q named r) (follow : isGrouped name r.kind = false → MayFollow k r)
    (fresh : k.head? ≠ some 63)
    (h : Q (embed named name r.kind (assemble named r) ++ k).scalars) :
    scan (embed named name r.kind (assemble named r) ++ k).scalars =
      (embedTokens named name r.kind (tokens named r)).map .ok ++ scan k.scalars ∧
        Q k.scalars ∧
        ∀ e ∈ (⟨name, r⟩ : Entry Rule) :: reach r.entries, e.isNamed = true → Stands Q named e := by
  rw [embed_bytes] at h ⊢
  rw [embedTokens]
  by_cases grouped : isGrouped name r.kind = true
  · rw [if_pos grouped, List.append_assoc, List.append_assoc,
      Bytes.scalars_ascii_append (opening_ascii valid)] at h
    rw [if_pos grouped, if_pos grouped, List.append_assoc, List.append_assoc,
      Bytes.scalars_ascii_append (opening_ascii valid)]
    have opens (s : List Scalar) (fresh : Fresh s) := scan_opening named valid fresh
    have inside := body (41 :: k) (mayFollow_close k r)
    have here := q_enclosed lasting opens start h
    obtain ⟨scanned, q⟩ := scan_enclosed lasting opens start
      (fun q => ⟨(inside q).1, (inside q).2.1⟩) h
    refine ⟨scanned, q, ?_⟩
    rintro e (_ | ⟨_, below⟩) isNamed
    · exact ⟨k, fresh, here⟩
    · exact (inside here).2.2 e below isNamed
  · rw [if_neg grouped] at h
    rw [if_neg grouped, if_neg grouped]
    obtain ⟨scanned, q, below⟩ := body k (follow (by simpa using grouped)) h
    refine ⟨scanned, q, ?_⟩
    rintro e (_ | ⟨_, found⟩) isNamed
    · exact absurd (by simp_all [isGrouped, Entry.isNamed]) grouped
    · exact below e found isNamed

mutual

/-- The pattern of a rule is scanned to the tokens of the rule. -/
theorem scan_rule (named : Bool) : ∀ (name : Bytes) (r : Rule), Scannable Q ⟨name, r⟩ →
    (∀ e ∈ reach r.entries, Scannable Q e) → Scans Q named r
  | _, regex _ source, here, _ => by
      rintro _ ⟨t, rfl⟩ h
      have pasteable := here.2 _ _ rfl
      have closes : Bytes.scalars (41 :: t) = paren :: Bytes.scalars t :=
        Bytes.scalars_cons_ascii (by decide) t
      rw [assemble, Bytes.scalars_append_ascii source (by decide), closes] at h
      rw [assemble, Bytes.scalars_append_ascii source (by decide), closes]
      obtain ⟨scanned, q⟩ := pasteable.stops _ h
      exact ⟨scanned, q, by simp [entries, reach, visitEntries, Walk.nothing]⟩
  | _, text _ literal, _, _ => by
      intro k follow h
      have cut : (escape literal ++ k).scalars = (escape literal).scalars ++ k.scalars := by
        cases k with
        | nil => simp
        | cons a k => exact Bytes.scalars_append_ascii _ (follow a k rfl) k
      rw [assemble, cut] at h ⊢
      obtain ⟨scanned, q⟩ := scan_text lasting literal k.scalars h
      exact ⟨scanned, q, by simp [entries, reach, visitEntries, Walk.nothing]⟩
  | _, combine _ how entries, _, below => by
      intro k follow h
      have start : ∀ p : Bytes, Bytes.scalars (40 :: p) = [Scalar.ascii 40] ++ p.scalars :=
        fun p => Bytes.scalars_cons_ascii (by decide) p
      rw [assemble_combine, List.cons_append, List.append_assoc, List.cons_append, start] at h ⊢
      have inside : Q (Bytes.join how.separator (assembleEntries named entries) ++
            41 :: (how.quantifier ++ k)).scalars →
          scan (Bytes.join how.separator (assembleEntries named entries) ++
              41 :: (how.quantifier ++ k)).scalars =
            (if how = .oneOf then choiceTokens named entries
              else seqTokens named [] entries).map .ok ++
                scan (Bytes.scalars (41 :: (how.quantifier ++ k))) ∧
            Q (Bytes.scalars (41 :: (how.quantifier ++ k))) ∧
            ∀ e ∈ reach entries, e.isNamed = true → Stands Q named e := by
        rw [separator_bytes]
        by_cases choice : how = .oneOf
        · simp only [if_pos choice]
          exact scan_choice named entries below _
        · simp only [if_neg choice, join_seq]
          exact scan_seq named entries below [] _
      have opens (s : List Scalar) (fresh : Fresh s) :
          scan ([Scalar.ascii 40] ++ s) = .ok (.capture []) :: scan s := by
        rw [List.cons_append, List.nil_append, scan_cons, next_open fresh]
        rfl
      have first := head?_join named how entries
      obtain ⟨scanned, q⟩ :=
        scan_enclosed lasting opens first (fun q => ⟨(inside q).1, (inside q).2.1⟩) h
      obtain ⟨repeated, q⟩ := scan_repetition lasting how follow q
      refine ⟨?_, q, (inside (q_enclosed lasting opens first h)).2.2⟩
      rw [scanned, repeated, tokens]
      simp

/-- The patterns of entries one after another, with a text before them. -/
theorem scan_seq (named : Bool) : ∀ (entries : List (Entry Rule)),
    (∀ e ∈ reach entries, Scannable Q e) → ∀ (pending k : Bytes),
    Q (escape pending ++ ((assembleEntries named entries).flatten ++ 41 :: k)).scalars →
    scan (escape pending ++ ((assembleEntries named entries).flatten ++ 41 :: k)).scalars =
      (seqTokens named pending entries).map .ok ++ scan (Bytes.scalars (41 :: k)) ∧
        Q (Bytes.scalars (41 :: k)) ∧
        ∀ e ∈ reach entries, e.isNamed = true → Stands Q named e
  | [], _, pending, k => by
      intro h
      rw [assembleEntries, List.flatten_nil, List.nil_append,
        Bytes.scalars_append_ascii _ (by decide)] at h
      rw [assembleEntries, List.flatten_nil, List.nil_append,
        Bytes.scalars_append_ascii _ (by decide)]
      obtain ⟨scanned, q⟩ := scan_text lasting pending _ h
      exact ⟨scanned, q, by simp [reach, visitEntries, Walk.nothing]⟩
  | ⟨name, r⟩ :: rest, all, pending, k => by
      intro h
      rw [reach_cons] at all ⊢
      have here := all _ (List.mem_cons_self ..)
      have below := fun e he => all e (List.mem_cons_of_mem _ (List.mem_append_left _ he))
      have others := fun e he => all e (List.mem_cons_of_mem _ (List.mem_append_right _ he))
      rw [assembleEntries, List.flatten_cons, List.append_assoc] at h ⊢
      cases found : literal? name r with
      | some literal =>
        obtain ⟨rfl, tag, rfl⟩ := eq_text_of_literal? found
        have joined : embed named [] (text tag literal).kind (assemble named (text tag literal)) =
            escape literal := rfl
        rw [joined, ← List.append_assoc, ← escape_append] at h ⊢
        obtain ⟨scanned, q, after⟩ := scan_seq named rest others (pending ++ literal) k h
        refine ⟨by simpa [seqTokens, found] using scanned, q, ?_⟩
        intro e mem isNamed
        obtain rfl | mem := List.mem_cons.1 mem
        · simp [Entry.isNamed] at isNamed
        · exact after e (by simpa [entries, reach, visitEntries, Walk.nothing] using mem) isNamed
      | none =>
        obtain ⟨p, start⟩ := embed_open named found
        have cut : ∀ t : Bytes, (escape pending ++
              (embed named name r.kind (assemble named r) ++ t)).scalars =
            (escape pending).scalars ++
              (embed named name r.kind (assemble named r) ++ t).scalars := by
          intro t
          rw [start, List.cons_append, Bytes.scalars_append_ascii _ (by decide)]
        have follow := head?_append_close (head?_entries named rest) k
        rw [cut] at h ⊢
        obtain ⟨before, q⟩ := scan_text lasting pending _ h
        obtain ⟨entry, q, within⟩ := scan_embed lasting here.1 (here.head?_assemble named)
          (scan_rule named name r here below) (mayFollow_entry found follow) follow q
        obtain ⟨after, q, beyond⟩ := scan_seq named rest others [] k q
        refine ⟨?_, q, ?_⟩
        · rw [escape_nil, List.nil_append] at after
          rw [before, entry, after, seqTokens, found]
          simp
        · intro e mem isNamed
          rw [← List.cons_append, List.mem_append] at mem
          exact mem.elim (within e · isNamed) (beyond e · isNamed)

/-- The patterns of entries with bars between them. -/
theorem scan_choice (named : Bool) : ∀ (entries : List (Entry Rule)),
    (∀ e ∈ reach entries, Scannable Q e) → ∀ k : Bytes,
    Q (Bytes.join [124] (assembleEntries named entries) ++ 41 :: k).scalars →
    scan (Bytes.join [124] (assembleEntries named entries) ++ 41 :: k).scalars =
      (choiceTokens named entries).map .ok ++ scan (Bytes.scalars (41 :: k)) ∧
        Q (Bytes.scalars (41 :: k)) ∧
        ∀ e ∈ reach entries, e.isNamed = true → Stands Q named e
  | [], _, k => by
      intro h
      exact ⟨rfl, h, by simp [reach, visitEntries, Walk.nothing]⟩
  | ⟨name, r⟩ :: rest, all, k => by
      intro h
      rw [reach_cons] at all ⊢
      have here := all _ (List.mem_cons_self ..)
      have below := fun e he => all e (List.mem_cons_of_mem _ (List.mem_append_left _ he))
      have others := fun e he => all e (List.mem_cons_of_mem _ (List.mem_append_right _ he))
      rw [join_choice, List.append_assoc] at h ⊢
      have follow (alone : isGrouped name r.kind = false) : MayFollow
          ((if rest.isEmpty then [] else 124 :: Bytes.join [124] (assembleEntries named rest)) ++
            41 :: k) r := by
        split
        · exact mayFollow_close k r
        · exact mayFollow_bar alone _
      have fresh :
          ((if rest.isEmpty then [] else 124 :: Bytes.join [124] (assembleEntries named rest)) ++
            41 :: k).head? ≠ some 63 := by
        split <;> simp
      obtain ⟨entry, q, within⟩ := scan_embed lasting here.1 (here.head?_assemble named)
        (scan_rule named name r here below) follow fresh h
      rw [choiceTokens]
      cases rest with
      | nil =>
        refine ⟨?_, q, ?_⟩
        · rw [entry]
          simp
        · simpa [reach, visitEntries, Walk.nothing] using within
      | cons d rest =>
        simp only [List.isEmpty_cons, Bool.false_eq_true, if_false, List.cons_append] at entry q ⊢
        rw [Bytes.scalars_cons_ascii (by decide)] at entry q
        have bar (y : List Scalar) : scan (Scalar.ascii 124 :: y) = .ok .bar :: scan y := by
          rw [scan_cons]
          rfl
        have q' := lasting.take [.bar] (List.suffix_cons _ _) (fun y _ => bar _) q
        obtain ⟨others, q', beyond⟩ := scan_choice named (d :: rest) others k q'
        refine ⟨?_, q', ?_⟩
        · rw [entry, bar, others]
          simp
        · intro e mem isNamed
          rw [← List.cons_append, List.mem_append] at mem
          exact mem.elim (within e · isNamed) (beyond e · isNamed)

end

end

end Rule

end Rulebook

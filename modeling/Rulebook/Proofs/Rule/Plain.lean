import Rulebook.Proofs.Pattern.Lead
import Rulebook.Proofs.Pattern.Portion
import Rulebook.Proofs.Pattern.Spans
import Rulebook.Proofs.Rule.Acceptance

/-!
# Rules that are accepted

A rule is plain if its texts are UTF-8 and its patterns are scanned in the same way wherever they
stand. The pattern of such a rule is scanned to the tokens of the rule (`Rule.Plain.scan_assemble`),
so that the rule is accepted if these tokens are read within the limits (`Rule.Plain.compiles`), and
its pattern may itself stand as a leaf (`Rule.Plain.leaf`).
-/

namespace Rulebook

open Pattern
open Token (scan paren)

namespace Rule

/-! ### Characters without stray bytes -/

/-- True of characters none of which stands for a stray byte. -/
def Sane (s : List Scalar) : Prop := ∀ c ∈ s, c.isStray = false

theorem sane_iff {s : Bytes} : Sane s.scalars ↔ s.isUtf8 = true := by
  simp [Sane, Bytes.isUtf8]

theorem lasting_sane : Lasting Sane where
  take _ _ _ suffix _ sane c mem := sane c (suffix.subset mem)
  valid sane := sane _ (List.mem_cons_self ..)

theorem isUtf8_escape {literal : Bytes} (h : literal.isUtf8 = true) :
    (escape literal).isUtf8 = true := by
  rw [← sane_iff] at h ⊢
  rw [scalars_escape]
  intro c mem
  obtain ⟨d, mem', mem⟩ := List.mem_flatMap.1 mem
  unfold escapeScalar at mem
  split at mem
  · obtain rfl | mem := List.mem_cons.1 mem
    · exact Scalar.isStray_ascii (by decide)
    · exact List.mem_singleton.1 mem ▸ h d mem'
  · exact List.mem_singleton.1 mem ▸ h d mem'

/-! ### Plain rules -/

/-- True if every text of a rule is UTF-8. -/
def TextsUtf8 (r : Rule) : Prop :=
  ∀ e ∈ (⟨[], r⟩ : Entry Rule) :: reach r.entries, ∀ tag literal, e.rule = text tag literal →
    literal.isUtf8 = true

theorem TextsUtf8.entry {r : Rule} (h : TextsUtf8 r) {e : Entry Rule} (mem : e ∈ r.entries) :
    TextsUtf8 e.rule := by
  intro d below tag literal eq
  obtain rfl | below := List.mem_cons.1 below
  · exact h e (List.mem_cons_of_mem _ (mem_reach mem)) tag literal eq
  · exact h d (List.mem_cons_of_mem _ (reach_trans_rule r (mem_reach mem) below)) tag literal eq

/-- True of a pattern that is scanned in the same way wherever it stands. -/
structure PlainLeaf (source : Bytes) : Prop where
  valid : source.isUtf8 = true
  scanned : scan source.scalars = (leafTokens source).map .ok
  pasteable : Pasteable Sane source

/-- A rule with valid names whose texts are UTF-8 and whose patterns are plain. -/
structure Plain (r : Rule) : Prop where
  names : ∀ e ∈ reach r.entries, e.name = [] ∨ isValidName e.name = true
  texts : TextsUtf8 r
  leaves : ∀ e ∈ (⟨[], r⟩ : Entry Rule) :: reach r.entries, ∀ tag source,
    e.rule = regex tag source → PlainLeaf source

theorem Plain.entry {r : Rule} (plain : Plain r) {e : Entry Rule} (mem : e ∈ r.entries) :
    Plain e.rule where
  names d below := plain.names d (reach_trans_rule r (mem_reach mem) below)
  texts := plain.texts.entry mem
  leaves d below := by
    obtain rfl | below := List.mem_cons.1 below
    · exact fun tag source eq => plain.leaves e (List.mem_cons_of_mem _ (mem_reach mem)) tag source eq
    · exact plain.leaves d (List.mem_cons_of_mem _ (reach_trans_rule r (mem_reach mem) below))

theorem mem_reach_iff {entries : List (Entry Rule)} {e : Entry Rule} :
    e ∈ reach entries ↔ ∃ d ∈ entries, e = d ∨ e ∈ reach d.rule.entries := by
  constructor
  · intro mem
    induction entries with
    | nil => cases mem
    | cons d rest ih =>
      rw [reach_cons, List.mem_cons, List.mem_append] at mem
      obtain here | below | later := mem
      · exact ⟨d, List.mem_cons_self .., .inl here⟩
      · exact ⟨d, List.mem_cons_self .., .inr below⟩
      · obtain ⟨d', mem, there⟩ := ih later
        exact ⟨d', List.mem_cons_of_mem _ mem, there⟩
  · rintro ⟨d, mem, rfl | below⟩
    · exact mem_reach mem
    · exact reach_trans entries (mem_reach mem) below

theorem plain_text (tag : Nat) (literal : Bytes) (valid : literal.isUtf8 = true) :
    Plain (text tag literal) where
  names := nofun
  texts e mem tag literal eq := by
    cases List.mem_singleton.1 mem
    cases eq
    exact valid
  leaves e mem tag source eq := by
    cases List.mem_singleton.1 mem
    cases eq

theorem PlainLeaf.plain (tag : Nat) {source : Bytes} (leaf : PlainLeaf source) :
    Plain (regex tag source) where
  names := nofun
  texts e mem tag literal eq := by
    cases List.mem_singleton.1 mem
    cases eq
  leaves e mem tag source eq := by
    cases List.mem_singleton.1 mem
    cases eq
    exact leaf

/-- What holds of a combination, and of the rules of its entries and of all below them, holds of all
    rules that can be reached. -/
theorem forall_below (P : Rule → Prop) {tag : Nat} {how : Combinator} {entries : List (Entry Rule)}
    (here : P (combine tag how entries))
    (below : ∀ e ∈ entries, ∀ d ∈ (⟨[], e.rule⟩ : Entry Rule) :: reach e.rule.entries, P d.rule) :
    ∀ d ∈ (⟨[], combine tag how entries⟩ : Entry Rule) :: reach entries, P d.rule := by
  intro d mem
  obtain rfl | mem := List.mem_cons.1 mem
  · exact here
  · obtain ⟨e, mem, rfl | deep⟩ := mem_reach_iff.1 mem
    · exact below d mem ⟨[], d.rule⟩ (List.mem_cons_self ..)
    · exact below e mem d (List.mem_cons_of_mem _ deep)

/-- A combination of plain rules under valid names is plain. -/
theorem plain_combine (tag : Nat) (how : Combinator) {entries : List (Entry Rule)}
    (names : ∀ e ∈ entries, e.name = [] ∨ isValidName e.name = true)
    (plain : ∀ e ∈ entries, Plain e.rule) : Plain (combine tag how entries) where
  names e mem := by
    obtain ⟨d, mem, rfl | below⟩ := mem_reach_iff.1 mem
    · exact names e mem
    · exact (plain d mem).names e below
  texts := forall_below (fun r => ∀ tag literal, r = text tag literal → literal.isUtf8 = true) nofun
    fun e mem => (plain e mem).texts
  leaves := forall_below (fun r => ∀ tag source, r = regex tag source → PlainLeaf source) nofun
    fun e mem => (plain e mem).leaves

theorem assembleEntries_eq (named : Bool) (entries : List (Entry Rule)) :
    assembleEntries named entries =
      entries.map fun e => embed named e.name e.rule.kind (assemble named e.rule) := by
  induction entries with
  | nil => rfl
  | cons e rest ih => rw [assembleEntries, ih, List.map_cons]

theorem isUtf8_embed {named : Bool} {name : Bytes} {kind : Kind} {p : Bytes}
    (valid : name = [] ∨ isValidName name = true) (h : p.isUtf8 = true) :
    (embed named name kind p).isUtf8 = true := by
  rw [embed_bytes]
  split
  · exact Bytes.isUtf8_append (Bytes.isUtf8_of_ascii (opening_ascii valid))
      (Bytes.isUtf8_append h rfl)
  · exact h

/-- The pattern of a plain rule is UTF-8. -/
theorem Plain.isUtf8_assemble {r : Rule} (plain : Plain r) (named : Bool) :
    (assemble named r).isUtf8 = true := by
  induction r using of_entries with
  | step r ih =>
  cases r with
  | regex tag source => exact (plain.leaves _ (List.mem_cons_self ..) tag source rfl).valid
  | text tag literal => exact isUtf8_escape (plain.texts _ (List.mem_cons_self ..) tag literal rfl)
  | combine tag how entries =>
    rw [assemble_combine, assembleEntries_eq]
    refine Bytes.isUtf8_cons (by decide) (Bytes.isUtf8_append ?_ (Bytes.isUtf8_cons (by decide) ?_))
    · refine Bytes.isUtf8_join ?_ fun part mem => ?_
      · rw [separator_bytes]
        split <;> simp
      · obtain ⟨e, here, rfl⟩ := List.mem_map.1 mem
        exact isUtf8_embed (plain.names e (mem_reach here)) (ih e here (plain.entry here))
    · rw [quantifier_bytes]
      cases how with
      | zeroOrMore isLazy => cases isLazy <;> rfl
      | oneOrMore isLazy => cases isLazy <;> rfl
      | _ => rfl

/-- The pattern of a plain rule is scanned to the tokens of the rule, wherever it may stand. -/
theorem Plain.scan_assemble {r : Rule} (plain : Plain r) (named : Bool) {k : Bytes}
    (follow : MayFollow k r) (valid : k.isUtf8 = true) :
    scan (assemble named r ++ k).scalars = (tokens named r).map .ok ++ scan k.scalars := by
  have scans : Scans Sane named r := by
    refine scan_rule lasting_sane named [] r ⟨.inl rfl, fun tag source eq => ?_⟩
      fun e mem => ⟨plain.names e mem, fun tag source eq => ?_⟩
    · exact (plain.leaves _ (List.mem_cons_self ..) tag source eq).pasteable
    · exact (plain.leaves e (List.mem_cons_of_mem _ mem) tag source eq).pasteable
  exact (scans k follow (sane_iff.2 (Bytes.isUtf8_append (plain.isUtf8_assemble named) valid))).1

theorem Plain.scan_alone {r : Rule} (plain : Plain r) (named : Bool) :
    scan (assemble named r).scalars = (tokens named r).map .ok := by
  by_cases kind : r.kind = .regex
  · cases r with
    | regex tag source => exact (plain.leaves _ (List.mem_cons_self ..) tag source rfl).scanned
    | _ => cases kind
  · have scanned := plain.scan_assemble named (mayFollow_nil kind) rfl
    rwa [List.append_nil, Bytes.scalars_nil, Token.scan_nil, List.append_nil] at scanned

theorem Plain.scan_anchor {r : Rule} (plain : Plain r) :
    scan (anchor r.namedPattern).scalars = (anchored (tokens true r)).map .ok := by
  have scanned := plain.scan_assemble true (mayFollow_close [36] r) rfl
  have dollar : Bytes.scalars [36] = [Scalar.ascii 36] := rfl
  rw [Bytes.scalars_append_ascii _ (by decide), Bytes.scalars_cons_ascii (by decide), dollar]
    at scanned
  rw [Rule.scan_anchor, namedPattern, show paren = Scalar.ascii 41 from rfl, scanned,
    show Scalar.ascii 41 = paren from rfl, scan_paren, scan_dollar]
  simp [anchored]

theorem leafTokens_of_scan {source : Bytes} {tokens : List Token}
    (h : scan source.scalars = tokens.map .ok) : leafTokens source = tokens := by
  rw [leafTokens, h]
  simp [List.filterMap_map, Function.comp_def, Except.toOption]

/-- The pattern of a plain combination can stand as a leaf. -/
theorem Plain.leaf {tag : Nat} {how : Combinator} {entries : List (Entry Rule)}
    (plain : Plain (.combine tag how entries)) (named : Bool) :
    PlainLeaf (assemble named (.combine tag how entries)) ∧
      leafTokens (assemble named (.combine tag how entries)) =
        tokens named (.combine tag how entries) := by
  have scanned := plain.scan_alone named
  have same := leafTokens_of_scan scanned
  refine ⟨⟨plain.isUtf8_assemble named, same ▸ scanned, ?_, fun k sane => ?_⟩, same⟩
  · rw [assemble_combine]
    simp
  · have closes : Bytes.scalars (41 :: k) = paren :: k.scalars :=
      Bytes.scalars_cons_ascii (by decide) k
    have cut := Bytes.scalars_append_ascii (assemble named (.combine tag how entries))
      (show (41 : UInt8) < 0x80 by decide) k
    rw [closes] at cut
    have valid : Bytes.isUtf8 (41 :: k) = true := by
      rw [← sane_iff, closes]
      exact fun c mem => sane c (List.mem_append_right _ mem)
    rw [← cut, plain.scan_assemble named (mayFollow_close k _) valid, same, closes]
    exact ⟨rfl, fun c mem => sane c (List.mem_append_right _ mem)⟩

/-! ### Small patterns -/

theorem mem_of_quoting {s : List Scalar} (h : Token.Quoting s) : ∃ c ∈ s, c.char = 'Q' := by
  induction h with
  | @here c s quote =>
    obtain ⟨-, q, t, rfl, isQ, -⟩ := quote
    exact ⟨q, by simp, isQ⟩
  | @later c s _ ih =>
    obtain ⟨d, mem, isQ⟩ := ih
    exact ⟨d, List.mem_cons_of_mem _ ((Token.next_suffix c s).subset mem), isQ⟩

/-- True of characters that hold a bracket before a colon, where the name of a class may stand. -/
def namesClass : List Scalar → Bool
  | o :: c :: rest => (o.char == '[' && c.char == ':') || namesClass (c :: rest)
  | _ => false

theorem namesClass_of_within {s : List Scalar} {o c : Scalar} (h : [o, c] <:+: s)
    (bracket : o.char = '[') (colon : c.char = ':') : namesClass s = true := by
  obtain ⟨front, back, rfl⟩ := h
  induction front with
  | nil => simp [namesClass, bracket, colon]
  | cons a front ih =>
    cases front with
    | nil => simp_all [namesClass]
    | cons b front => simp_all [namesClass]

/-- A pattern without quoted text and without the names of classes is plain. -/
theorem plainLeaf_of_scan {source : Bytes} {tokens : List Token}
    (scanned : scan source.scalars = tokens.map .ok) (valid : source.isUtf8 = true)
    (fresh : source.head? ≠ some 63)
    (free : (!namesClass source.scalars && source.scalars.all (·.char != 'Q')) = true) :
    PlainLeaf source ∧ leafTokens source = tokens := by
  have same := leafTokens_of_scan scanned
  refine ⟨⟨valid, same ▸ scanned, fresh, fun k sane => ?_⟩, same⟩
  rw [Bool.and_eq_true, Bool.not_eq_true', List.all_eq_true] at free
  have closed : ¬ Token.Quoting source.scalars := by
    intro quoting
    obtain ⟨c, mem, isQ⟩ := mem_of_quoting quoting
    simpa [isQ] using free.2 c mem
  obtain stops | ⟨⟨o, c, infixed, bracket, colon⟩, -⟩ :=
    Token.scan_stops scanned closed k.scalars
  · rw [stops, same]
    exact ⟨rfl, fun c mem => sane c (List.mem_append_right _ mem)⟩
  · rw [namesClass_of_within infixed bracket colon] at free
    exact absurd free.1 (by decide)

/-! ### Limits -/

/-- A pattern that is read within the limits is accepted, and found by its program. -/
theorem ofPattern_of_whole {source : Bytes} {tokens : List Token} {e : Expr} {h l c : Nat}
    (scanned : scan source.scalars = tokens.map .ok) (whole : Whole tokens e h l c)
    (small : c < maxWeight) (unique : repeated? [] (Token.names tokens) = none) :
    ∃ regex, Regex.ofPattern source = .ok regex ∧ regex.lead = none := by
  obtain ⟨shape, p, read, calm, -, within⟩ := whole
  have fits : p.Fits :=
    ⟨Nat.lt_of_le_of_lt within.made small,
      Nat.le_trans within.listed (Nat.le_trans (Nat.le_of_lt small) (by decide))⟩
  obtain ⟨piece, parsed, drawn⟩ := Piece.parse_ok scanned read.read read.price fits
  obtain ⟨regex, accepted⟩ | refused := ofPattern_of_readable scanned ⟨⟨_, read.read⟩, unique⟩
  · obtain ⟨piece', parsed', -, -, lead, -⟩ := Regex.of_ofPattern accepted
    cases parsed.symm.trans parsed'
    exact ⟨regex, accepted, lead.trans (Lead.ofShape?_eq_none (drawn.2.isTame.trans calm.tame))⟩
  · rw [Regex.ofPattern, parsed] at refused
    simp only at refused
    split at refused <;> cases refused

theorem portion_test {token : Token} {condition : Assertion}
    (step : ∀ s : Sketch, s.flags = {} → s.step token = s.push (.test condition) (.test condition))
    (price : ∀ s : Sketch, s.flags = {} → s.price token = some ⟨1, 0⟩) :
    Portion [token] [.test condition] 1 0 1 :=
  ⟨_, _, .single step price (by simp [Shape.height, maxHeight]),
    by simpa [Shape.asString] using ⟨by simp [Shape.height], by simp [Shape.isTame]⟩,
    by simp [Shape.asString, Shape.listedAll, Shape.listed], ⟨Nat.le_refl _, Nat.zero_le _⟩⟩

/-- What is read between anchors. -/
theorem whole_anchored {tokens : List Token} {e : Expr} {h l c : Nat} (whole : Whole tokens e h l c)
    (low : 1 ≤ h) (fits : h < maxHeight) :
    Whole (anchored tokens) (.concat [.test .beginText, e, .test .endText]) (h + 1) l
      (c + 4 + 3 * l) := by
  have caret : Portion [.caret] [.test .beginText] 1 0 1 :=
    portion_test (fun s flags => by rw [Sketch.step, flags]; rfl) fun s _ => rfl
  have dollar : Portion [.dollar] [.test .endText] 1 0 1 :=
    portion_test (fun s flags => by rw [Sketch.step, flags]; rfl) fun s _ => rfl
  have all := (caret.append ((whole.enclosed (Nat.le_of_lt fits)).append dollar)).whole
    (by omega)
  have same : [Token.caret] ++ ((Token.enclose [] :: (tokens ++ [Token.close])) ++ [Token.dollar]) =
      anchored tokens := by simp [anchored]
  rw [same] at all
  obtain ⟨shape, p, read, calm, listed, within⟩ := all
  exact ⟨shape, p, read, calm.mono (by omega), Nat.le_trans listed (by omega),
    within.mono (by omega)⟩

/-- A plain rule whose tokens are read within the limits is accepted, and found by its programs. -/
theorem Plain.compiles {r : Rule} (plain : Plain r) {e : Expr} {h l c : Nat}
    (whole : Whole (tokens true r) e h l c) (low : 1 ≤ h) (fits : h < maxHeight)
    (small : c + 4 + 3 * l < maxWeight)
    (unique : repeated? [] (Token.names (tokens true r)) = none) :
    ∃ c, r.compile = .ok c ∧ c.search.lead = none ∧ c.whole.lead = none := by
  obtain ⟨search, accepted, lead⟩ :=
    ofPattern_of_whole (plain.scan_alone true) whole (by omega) unique
  have names : Token.names (anchored (tokens true r)) = Token.names (tokens true r) := by
    simp [anchored, Token.names, Token.names_append]
  obtain ⟨wholly, accepted', lead'⟩ := ofPattern_of_whole plain.scan_anchor
    (whole_anchored whole low fits) small (by rw [names]; exact unique)
  refine ⟨⟨search, wholly⟩, ?_, lead, lead'⟩
  rw [compile, show r.namedPattern = assemble true r from rfl, accepted]
  simp only
  rw [show assemble true r = r.namedPattern from rfl, accepted']

/-- True of tokens that are read well within the limits and repeat no name. -/
def isSmall (tokens : List Token) : Bool :=
  match Sketch.read tokens with
  | none => false
  | some (e, _) =>
      Whole.check tokens e 100 1000 1000 && (repeated? [] (Token.names tokens)).isNone

theorem Plain.compiles_of_isSmall {r : Rule} (plain : Plain r) (ts : List Token)
    (same : tokens true r = ts) (small : isSmall ts = true) :
    ∃ c, r.compile = .ok c ∧ c.search.lead = none ∧ c.whole.lead = none := by
  rw [← same] at small
  unfold isSmall at small
  split at small
  · cases small
  · rename_i e shape read
    rw [Bool.and_eq_true, Option.isNone_iff_eq_none] at small
    exact plain.compiles (Whole.of_check small.1) (by decide) (by decide) (by decide) small.2

/-! ### A rule that is accepted -/

theorem sound_text (tag : Nat) (literal : Bytes) : Sound (text tag literal) where
  names := nofun
  leaf := nofun
  leaves := nofun

theorem sound_regex {tag : Nat} {source : Bytes} (accepted : Accepted (regex tag source)) :
    Sound (regex tag source) where
  names := nofun
  leaf _ _ _ := accepted
  leaves := nofun

theorem sound_combine (tag : Nat) (how : Combinator) {entries : List (Entry Rule)}
    (names : ∀ e ∈ entries, e.name = [] ∨ isValidName e.name = true)
    (sound : ∀ e ∈ entries, Sound e.rule) : Sound (combine tag how entries) where
  names e mem := by
    obtain ⟨d, mem, rfl | below⟩ := mem_reach_iff.1 mem
    · exact names e mem
    · exact (sound d mem).names e below
  leaf := nofun
  leaves e mem tag source eq := by
    obtain ⟨d, mem, rfl | below⟩ := mem_reach_iff.1 mem
    · exact (sound e mem).leaf tag source eq
    · exact (sound d mem).leaves e below tag source eq

namespace Sample

def xs : Rule := regex 0 "x+"

def digit : Rule := regex 1 "[0-9]"

def choice : Rule :=
  combine 2 .oneOf [⟨"p", text 3 "a"⟩, ⟨[], combine 4 (.zeroOrMore true) [⟨[], xs⟩]⟩]

/-- The letter `a` or any number of `x`, then a digit and a full stop. -/
def whole : Rule := combine 5 .seq [⟨"k", choice⟩, ⟨[], digit⟩, ⟨[], text 6 "."⟩]

theorem plainLeaf_xs : PlainLeaf "x+" ∧ leafTokens "x+" = [.char 120, .repeated .plus false "+"] :=
  plainLeaf_of_scan (by decide +kernel) (by decide) (by decide) (by decide)

theorem plainLeaf_digit : PlainLeaf "[0-9]" ∧
    leafTokens "[0-9]" = [.set [⟨⟨[(48, 57)]⟩, false⟩] false] :=
  plainLeaf_of_scan (by decide +kernel) (by decide) (by decide) (by decide)

theorem plain_xs : Plain xs := plainLeaf_xs.1.plain 0

theorem plain_digit : Plain digit := plainLeaf_digit.1.plain 1

theorem plain_choice : Plain choice := by
  refine plain_combine 2 .oneOf (by decide) ?_
  simp only [List.forall_mem_cons, List.not_mem_nil, false_implies, implies_true, and_true]
  refine ⟨plain_text 3 "a" (by decide), plain_combine 4 _ (by decide) ?_⟩
  simpa using plain_xs

theorem plain_whole : Plain whole := by
  refine plain_combine 5 .seq (by decide) ?_
  simp only [List.forall_mem_cons, List.not_mem_nil, false_implies, implies_true, and_true]
  exact ⟨plain_choice, plain_digit, plain_text 6 "." (by decide)⟩

theorem compiles_xs : ∃ c, xs.compile = .ok c ∧ c.search.lead = none ∧ c.whole.lead = none :=
  plain_xs.compiles_of_isSmall _ plainLeaf_xs.2 (by decide)

theorem compiles_digit :
    ∃ c, digit.compile = .ok c ∧ c.search.lead = none ∧ c.whole.lead = none :=
  plain_digit.compiles_of_isSmall _ plainLeaf_digit.2 (by decide)

theorem accepted_stop : Accepted (text 6 ".") := by
  obtain ⟨c, compiled, -⟩ := (plain_text 6 "." (by decide)).compiles_of_isSmall
    [.char 46] (by decide) (by decide)
  exact ⟨c, compiled⟩

theorem accepted_choice : Accepted choice := by
  obtain ⟨c, compiled, -⟩ := plain_choice.compiles_of_isSmall
    [.capture [], .capture "p", .char 97, .close, .bar, .capture [], .enclose [], .char 120,
      .repeated .plus false "+", .close, .close, .repeated .star true "*?", .close]
    (by
      simp only [choice, xs, tokens, seqTokens, choiceTokens, plainLeaf_xs.2]
      decide)
    (by decide)
  exact ⟨c, compiled⟩

theorem accepted_whole : Accepted whole := by
  obtain ⟨c, compiled, -⟩ := plain_whole.compiles_of_isSmall
    [.capture [], .capture "k", .capture [], .capture "p", .char 97, .close, .bar,
      .capture [], .enclose [], .char 120, .repeated .plus false "+", .close, .close,
      .repeated .star true "*?", .close, .close, .enclose [],
      .set [⟨⟨[(48, 57)]⟩, false⟩] false, .close, .char 46, .close]
    (by
      simp only [whole, choice, digit, xs, tokens, seqTokens, choiceTokens, plainLeaf_xs.2,
        plainLeaf_digit.2]
      decide)
    (by decide)
  exact ⟨c, compiled⟩

theorem sound_xs : Sound xs := sound_regex (compiles_xs.imp fun _ h => h.1)

theorem sound_whole : Sound whole := by
  have digits : Sound digit := sound_regex (compiles_digit.imp fun _ h => h.1)
  refine sound_combine 5 .seq (by decide) ?_
  simp only [List.forall_mem_cons, List.not_mem_nil, false_implies, implies_true, and_true]
  refine ⟨sound_combine 2 .oneOf (by decide) ?_, digits, sound_text 6 "."⟩
  simp only [List.forall_mem_cons, List.not_mem_nil, false_implies, implies_true, and_true]
  refine ⟨sound_text 3 "a", sound_combine 4 _ (by decide) ?_⟩
  simpa using sound_xs

end Sample

end Rule

end Rulebook

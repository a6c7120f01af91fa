import Rulebook.Proofs.Definition.Dividing
import Rulebook.Proofs.Definition.Policy
import Rulebook.Proofs.Rule.Agreement

/-!
# Lines mean what they say

A source of one line comes to what the line says if it is read plainly (`Definition.compile_line`): the
grammar that recognises lines, the nodes that are found in them and what is built from the nodes have no
other part in it.
-/

namespace Rulebook

open Pattern Bytes

namespace Definition

open Bootstrap (ruleEntry IsSpace IsBlank IsComment Blanks Divided)

variable {c : Context} {l title : Bytes} {row : List Phrase} {base : Registry} {tag : Nat} {rule : Rule}

/-! ### Lines that are divided -/

theorem scalars_append_of_ascii {s : Bytes} (ascii : ∀ a ∈ s, a < 0x80) (t : Bytes) :
    Bytes.scalars (s ++ t) = s.scalars ++ t.scalars := by
  have alone := scalars_ascii_append ascii []
  rw [List.append_nil, scalars_nil, List.append_nil] at alone
  rw [scalars_ascii_append ascii, alone]

theorem scalars_append_before (s : Bytes) {t : Bytes} (head : ∀ a ∈ t.head?, a < 0x80) :
    Bytes.scalars (s ++ t) = s.scalars ++ t.scalars := by
  cases t with
  | nil => simp
  | cons a t => exact scalars_append_ascii s (head a rfl) t

theorem ascii_of_isIdentifier (h : isIdentifier title = true) : ∀ a ∈ title, a < 0x80 := by
  rw [isIdentifier, Bool.and_eq_true, isValidName, Bool.and_eq_true, List.all_eq_true] at h
  exact fun a mem => (Rule.word_byte (h.1.2 a mem)).1

/-- A definition is divided into its name and its value. -/
theorem IsDefinition.divided (h : IsDefinition l title row) : isIdentifier title = true ∧
    ∃ value, Divided l.scalars title.scalars value ∧ SpelledRow Bootstrap.maxDepth row value := by
  obtain ⟨b₁, b₂, b₃, value, b₄, b₅, ending, rfl, ⟨blank₁, blank₂, blank₃, blank₄, blank₅⟩, named, spelled,
    ends⟩ := h
  have head : ∀ a ∈ (b₄ ++ 59 :: (b₅ ++ ending)).head?, a < 0x80 := by
    cases b₄ with
    | nil =>
      rintro _ ⟨⟩
      decide
    | cons a b₄ =>
      rintro _ ⟨⟩
      exact blank₄.ascii a (List.mem_cons_self ..)
  refine ⟨named, value.scalars, ⟨b₁.scalars ++ (title.scalars ++ (b₂.scalars ++ .ascii 61 :: b₃.scalars)),
    (b₄.scalars ++ .ascii 59 :: b₅.scalars) ++ ending.scalars, ?_, ?_, mem_value.2 ⟨row, spelled⟩, ?_⟩,
    spelled⟩
  · rw [scalars_append_of_ascii blank₁.ascii, scalars_append_of_ascii (ascii_of_isIdentifier named),
      scalars_append_of_ascii blank₂.ascii, scalars_cons_ascii (by decide), scalars_append_of_ascii blank₃.ascii,
      scalars_append_before value head, scalars_append_of_ascii blank₄.ascii, scalars_cons_ascii (by decide),
      scalars_append_of_ascii blank₅.ascii]
    simp
  · exact ⟨_, _, rfl, blank₁.codes, mem_name_iff.2 named, _, _, _, rfl, blank₂.codes, by decide, blank₃.codes⟩
  · exact ⟨_, _, rfl, ⟨_, _, _, rfl, blank₄.codes, by decide, blank₅.codes⟩, Bootstrap.isBreak_of_mem ends⟩

/-- A line that is divided is a definition. -/
theorem isDefinition_of_divided {name value : List Scalar} (h : Divided l.scalars name value) :
    ∃ title row, IsDefinition l title row := by
  obtain ⟨_, _, eq, ⟨b₁, _, rfl, blank₁, named, b₂, mark, b₃, rfl, blank₂, isMark, blank₃⟩, here,
    _, ending, rfl, ⟨b₄, stop, b₅, rfl, blank₄, isStop, blank₅⟩, isBreak⟩ := h
  have whole := legible_scalars l
  rw [eq] at whole
  have name_eq : (ofScalars name).scalars = name :=
    legible_of_append_left (legible_of_append_right (legible_of_append_left whole))
  have value_eq : (ofScalars value).scalars = value := legible_of_append_left (legible_of_append_right whole)
  obtain ⟨row, spelled⟩ := mem_value.1 here
  have bytes := congrArg ofScalars eq
  have sub : ∀ s ∈ b₁ ++ (name ++ (b₂ ++ mark :: b₃)) ++ (value ++ (b₄ ++ stop :: b₅ ++ ending)), s ∈ l.scalars :=
    fun s mem => eq ▸ mem
  simp only [ofScalars_scalars, ofScalars_append, ofScalars_cons, List.append_assoc,
    Bootstrap.bytes_of_code (sub mark (by simp)) (a := 61) (by decide) isMark,
    Bootstrap.bytes_of_code (sub stop (by simp)) (a := 59) (by decide) isStop, List.singleton_append] at bytes
  refine ⟨ofScalars name, row, ofScalars b₁, ofScalars b₂, ofScalars b₃, ofScalars value, ofScalars b₄,
    ofScalars b₅, ofScalars ending, bytes, ⟨?_, ?_, ?_, ?_, ?_⟩, mem_name_iff.1 (name_eq.symm ▸ named),
    value_eq.symm ▸ spelled, Bootstrap.ofScalars_break (fun s mem => sub s (by simp [mem])) isBreak⟩
  · exact Bootstrap.blanks_ofScalars (fun s mem => sub s (by simp [mem])) blank₁
  · exact Bootstrap.blanks_ofScalars (fun s mem => sub s (by simp [mem])) blank₂
  · exact Bootstrap.blanks_ofScalars (fun s mem => sub s (by simp [mem])) blank₃
  · exact Bootstrap.blanks_ofScalars (fun s mem => sub s (by simp [mem])) blank₄
  · exact Bootstrap.blanks_ofScalars (fun s mem => sub s (by simp [mem])) blank₅

/-! ### What a definition comes to -/

/-- What a definition comes to depends on the rule that its value stands for. -/
theorem outcome_of_isDefinition (c : Context) (h : IsDefinition l title row) :
    ∃ n v, outcome c l = settle c n (ruleOf c n v) ∧ n.text = title ∧
      SpelledRow Bootstrap.maxDepth row v.text.scalars := by
  obtain ⟨-, value, divided, spelled⟩ := h.divided
  have taken := Rule.recognises_iff.2 (Bootstrap.matches_iff_divided.2 ⟨_, _, divided⟩)
  obtain ⟨t, n, v, built, -, parts⟩ := descend_definition taken
  obtain ⟨n', v', name_, value_, title_eq, value_eq⟩ := Bootstrap.parts_of_divided divided built
  cases parts.name_part.symm.trans name_
  cases parts.value_part.symm.trans value_
  refine ⟨n, v, outcome_definition c taken built parts.name_part parts.value_part, ?_, value_eq ▸ spelled⟩
  rw [← ofScalars_scalars n.text, title_eq, ofScalars_scalars]

theorem outcome_of_meaning (at_ : c.At l) (h : IsDefinition l title row)
    (known : valueRule c.registry c.tag row = some rule) (accepted : Rule.Accepted rule) :
    outcome c l = .defined title rule := by
  obtain ⟨n, v, eq, named, spelled⟩ := outcome_of_isDefinition c h
  have read : readValue c v.text (c.from v.offset) = .ok rule :=
    eq_ok_of_toOption ((toOption_readValue _ at_.grammar spelled).trans known)
  obtain ⟨compiled, accepted⟩ := accepted
  have valid : isValidName title = true := by
    have valid := h.divided.1
    rw [isIdentifier, Bool.and_eq_true] at valid
    exact valid.1
  have rule_eq : ruleOf c n v = .ok rule := by
    rw [ruleOf, read]
    change (lift rule.compile >>= _) = _
    rw [accepted, lift_ok, Registry.set, named, if_pos valid, lift_ok]
    rfl
  rw [eq, rule_eq, settle, named]

theorem outcome_of_meaningless (at_ : c.At l) (h : IsDefinition l title row)
    (none : ∀ rule, valueRule c.registry c.tag row = some rule → ¬ Rule.Accepted rule) :
    ∃ k e, outcome c l = .failed k (some e) := by
  obtain ⟨-, value, divided, -⟩ := h.divided
  have taken := Rule.recognises_iff.2 (Bootstrap.matches_iff_divided.2 ⟨_, _, divided⟩)
  refine (outcome_of_definition at_ taken).resolve_left ?_
  rintro ⟨name, rule, -, defined⟩
  obtain ⟨n, v, eq, -, spelled⟩ := outcome_of_isDefinition c h
  rw [eq] at defined
  have read : ruleOf c n v = .ok rule := by
    cases result : ruleOf c n v with
    | ok rule' =>
      rw [result] at defined
      cases defined
      rfl
    | error halt =>
      rw [result, settle.eq_def] at defined
      cases halt with
      | error e =>
        cases place : e.diagnosis? <;> simp only [place] at defined <;> cases defined
      | range fault => cases defined
      | endless => cases defined
  rw [ruleOf] at read
  cases value_ : readValue c v.text (c.from v.offset) with
  | error halt =>
    rw [value_] at read
    cases read
  | ok rule' =>
    rw [value_] at read
    have known := toOption_readValue (c.from v.offset) at_.grammar spelled
    rw [value_] at known
    refine none rule' known.symm ?_
    change (lift rule'.compile >>= _) = _ at read
    cases compiled : rule'.compile with
    | error e =>
      rw [compiled] at read
      cases read
    | ok both => exact ⟨both, compiled⟩

/-! ### Sources of one line -/

/-- True of a source that is a single line, with or without a line break at its end. -/
def IsLine (l : Bytes) : Prop := ∃ body, 10 ∉ body ∧ (l = body ∨ l = body ++ [10])

/-- A compilation whose only failure is a given one. The policy says how it ends. -/
def failing (policy : Policy) (base : Registry) (d : Error.Diagnosis) : Step Registry :=
  ⟨[.failure d], match policy 1 d with
    | some e => .error (.error e)
    | none => .ok base⟩

/-- A compilation that only gives a rule to a name. -/
def defining (base : Registry) (title : Bytes) (rule : Rule) : Step Registry :=
  ⟨(if (base.get? title).isSome then [.redefining title] else []) ++ [.defined title 1 rule.namedPattern],
    .ok (base.insert title rule)⟩

variable {filename : Bytes} {policy : Policy}

theorem IsLine.lines (h : IsLine l) (some_byte : l ≠ []) : Lines [l] := by
  obtain ⟨body, whole, rfl | rfl⟩ := h
  · exact .last some_byte whole
  · exact .cons whole .nil

/-- A source of one line comes to what the line comes to. -/
theorem compile_proceed (single : IsLine l) (some_byte : l ≠ []) :
    compile (.over base filename .proceed tag) l =
      let o := outcomeAt tag (.start filename l) base l
      ⟨o.events (.start filename) l base, .ok (o.register base)⟩ := by
  have cut : cutLines l = [l] := by simpa using (single.lines some_byte).cutLines_flatten
  rw [compile_walk, cut]
  simp only [walk, List.append_nil]
  rfl

/-- A policy cuts short what a compilation that goes on after every failure comes to. -/
theorem compile_of_full (options : Options) {full : Step Registry}
    (h : compile { options with policy := .proceed } l = full) :
    compile options l = match cut options.policy 0 full.events with
      | none => full
      | some (events, e) => ⟨events, .error (.error e)⟩ := by
  subst h
  exact compile_cut options l

/-- A policy has a say in a compilation only if there is a failure. -/
theorem compile_of_proceed {d : Error.Diagnosis}
    (h : compile (.over base filename .proceed tag) l = ⟨[.failure d], .ok base⟩) :
    compile (.over base filename policy tag) l = failing policy base d := by
  have ends := compile_of_full (.over base filename policy tag) h
  rw [ends, failing]
  simp only [Options.over, cut, Event.failure?, Nat.zero_add]
  cases policy 1 d <;> rfl

theorem compile_of_silent {events : List Event} {last : Registry} (none : failures events = [])
    (h : compile (.over base filename .proceed tag) l = ⟨events, .ok last⟩) :
    compile (.over base filename policy tag) l = ⟨events, .ok last⟩ := by
  have ends := compile_of_full (.over base filename policy tag) h
  rw [cut_of_failures_nil none] at ends
  exact ends

theorem at_start (filename : Bytes) (base : Registry) (tag : Nat) (l : Bytes) :
    Context.At ⟨.bootstrap, base, .start filename l, l.trim, tag⟩ l :=
  ⟨rfl, [], by rw [List.append_nil]; rfl⟩

theorem IsDefinition.ne_nil (h : IsDefinition l title row) : l ≠ [] := by
  obtain ⟨b₁, b₂, b₃, value, b₄, b₅, ending, rfl, -⟩ := h
  simp

/-- A line that is a definition gives its rule to its name. -/
theorem compile_defining (base : Registry) (filename : Bytes) (policy : Policy) (tag : Nat)
    (single : IsLine l) (h : IsDefinition l title row) (known : valueRule base tag row = some rule)
    (accepted : Rule.Accepted rule) :
    compile (.over base filename policy tag) l = defining base title rule := by
  have outcome_eq : outcomeAt tag (.start filename l) base l = .defined title rule :=
    outcome_of_meaning (at_start filename base tag l) h known accepted
  refine compile_of_silent (by split <;> rfl) ((compile_proceed single h.ne_nil).trans ?_)
  rw [outcome_eq]
  rfl

/-- A source of one line means what the line says, read plainly. If the line is a definition, and its value
    stands for a rule that the matcher accepts, the registry gets that rule under the name. If it does not,
    there is one failure with a cause on the line. If the line is neither blank, nor a comment, nor a
    definition, there is one failure without a cause where its first character stands that is not blank. -/
theorem compile_line (base : Registry) (filename : Bytes) (policy : Policy) (tag : Nat) {l : Bytes}
    (single : IsLine l) :
    (∀ title row, IsDefinition l title row →
      (∀ rule, valueRule base tag row = some rule → Rule.Accepted rule →
        compile (.over base filename policy tag) l = defining base title rule) ∧
      ((∀ rule, valueRule base tag row = some rule → ¬ Rule.Accepted rule) →
        ∃ position cause, position.line = 1 ∧
          compile (.over base filename policy tag) l = failing policy base ⟨position, l.trim, some cause⟩)) ∧
    (¬ IsBlank l → (∀ content, ¬ IsComment l content) → (∀ title row, ¬ IsDefinition l title row) →
      let before := l.scalars.takeWhile (isBlank ·.char)
      compile (.over base filename policy tag) l =
        failing policy base ⟨⟨filename, (ofScalars before).length, 1, 1 + before.length⟩, l.trim, none⟩) := by
  have at_ := at_start filename base tag l
  constructor
  · intro title row h
    constructor
    · intro rule known accepted
      exact compile_defining base filename policy tag single h known accepted
    · intro none
      obtain ⟨k, e, failed⟩ := outcome_of_meaningless at_ h none
      have outcome_eq : outcomeAt tag (.start filename l) base l = .failed k (some e) := failed
      refine ⟨(Position.start filename).advance (l.take k), e, ?_, compile_of_proceed
        ((compile_proceed single h.ne_nil).trans ?_)⟩
      · exact Position.line_advance ((single.lines h.ne_nil).notMem_take (failed_lt at_ failed))
      · rw [outcome_eq]
        rfl
  · intro some_char noComment noDefinition
    have some_byte : l ≠ [] := by
      rintro rfl
      exact some_char nofun
    have noEntry : ¬ ruleEntry.Matches l := fun matched => by
      obtain ⟨name, value, divided⟩ := Bootstrap.matches_iff_divided.1 matched
      obtain ⟨title, row, h⟩ := isDefinition_of_divided divided
      exact noDefinition title row h
    have outcome_eq : outcomeAt tag (.start filename l) base l = .failed (blanks l).length none :=
      outcome_of_other _ some_char noComment noEntry
    refine compile_of_proceed ((compile_proceed single some_byte).trans ?_)
    rw [outcome_eq]
    simp only [Outcome.events, Outcome.register]
    rw [take_blanks, advance_blanks (single.lines some_byte) some_char]
    simp [Position.start, blanks]

namespace Sample

/-- A registry of digits. -/
def digits : Registry := ⟨[⟨"d", .regex 1 "[0-9]"⟩]⟩

/-- A line with a reference, a group, a text and a pattern. -/
def line : Bytes := " n = d+ (\"a\" 'x' | d)*? ;\r\n"

/-- The tokens of the line's value. -/
def tokens : List Phrase :=
  [.literal (.bare (scalars "d")) (some (.oneOrMore false)),
    .group [[.literal (.text (scalars "\"a\"")) none, .literal (.pattern (scalars "x")) none],
      [.literal (.bare (scalars "d")) none]] (some (.zeroOrMore true))]

/-- What the value stands for. -/
def counted : Rule :=
  .combine 7 .seq [⟨"d", .combine 7 (.oneOrMore false) [⟨[], .regex 1 "[0-9]"⟩]⟩,
    ⟨[], .combine 7 (.zeroOrMore true) [⟨[], .combine 7 .oneOf
      [⟨[], .combine 7 .seq [⟨[], .text 7 "a"⟩, ⟨[], .regex 7 "x"⟩]⟩, ⟨[], .regex 1 "[0-9]"⟩]⟩]⟩]

instance : DecidablePred IsSpace := fun s => inferInstanceAs (Decidable (s.code = 9 ∨ s.code = 32))

instance : DecidablePred Blanks := fun s => inferInstanceAs (Decidable (∀ b ∈ s, b = 9 ∨ b = 32))

theorem spelled_d : (Literal.bare (scalars "d")).Spelled (scalars "d") := .bare (by decide) (by decide)

/-- A literal that no sign repeats. -/
theorem spelled_alone {literal : Literal} {w : List Scalar} (depth : Nat) (h : literal.Spelled w) :
    Phrase.Spelled depth (.literal literal none) w := by
  rw [Phrase.Spelled.eq_def]
  exact ⟨w, [], (List.append_nil w).symm, h, rfl⟩

theorem isGap_space : IsGap (scalars " ") := ⟨by decide, by decide⟩

theorem isBar_spaces : IsBar (scalars " | ") :=
  ⟨scalars " ", .ascii 124, scalars " ", rfl, by decide, rfl, by decide⟩

theorem spelled_pair (depth : Nat) :
    SpelledRow depth [.literal (.text (scalars "\"a\"")) none, .literal (.pattern (scalars "x")) none]
      (scalars "\"a\" 'x'") := by
  have plain (mark : Nat) (s : Scalar) (other : s.code ∉ [10, 13, mark, 92]) : Quotable mark [s] :=
    .plain other .nil
  have text : (Literal.text (scalars "\"a\"")).Spelled (scalars "\"a\"") :=
    .text rfl (plain 34 (.ascii 97) (by decide)) rfl
  have pattern : (Literal.pattern (scalars "x")).Spelled (scalars "'x'") :=
    .pattern rfl (plain 39 (.ascii 120) (by decide)) rfl
  exact .next (spelled_alone depth text) isGap_space (.last (spelled_alone depth pattern))

theorem spelled_tokens : SpelledRow Bootstrap.maxDepth tokens (scalars "d+ (\"a\" 'x' | d)*?") := by
  have alternatives : SpelledRows 3 [[.literal (.text (scalars "\"a\"")) none,
      .literal (.pattern (scalars "x")) none], [.literal (.bare (scalars "d")) none]]
      (scalars "\"a\" 'x' | d") :=
    .next (spelled_pair 3) isBar_spaces (.last (.last (spelled_alone 3 spelled_d)))
  have group : Enclosed (SpelledRows 3 [[.literal (.text (scalars "\"a\"")) none,
      .literal (.pattern (scalars "x")) none], [.literal (.bare (scalars "d")) none]])
      (scalars "(\"a\" 'x' | d)") :=
    ⟨.ascii 40, [], scalars "\"a\" 'x' | d", [], .ascii 41, rfl, rfl, nofun, alternatives, nofun, rfl⟩
  have reference : Phrase.Spelled 4 (.literal (.bare (scalars "d")) (some (.oneOrMore false)))
      (scalars "d+") := by
    rw [Phrase.Spelled.eq_def]
    exact ⟨scalars "d", scalars "+", rfl, spelled_d, "+", rfl, rfl⟩
  refine .next reference isGap_space (.last ?_)
  rw [Phrase.Spelled.eq_def]
  exact ⟨scalars "(\"a\" 'x' | d)", scalars "*?", rfl, group, "*?", rfl, rfl⟩

theorem isLine_line : IsLine line := ⟨" n = d+ (\"a\" 'x' | d)*? ;\r", by decide, .inr rfl⟩

theorem isDefinition_line : IsDefinition line "n" tokens :=
  ⟨" ", " ", " ", "d+ (\"a\" 'x' | d)*?", " ", [], [13, 10], rfl,
    ⟨by decide, by decide, by decide, by decide, by decide⟩, by decide, spelled_tokens, by decide⟩

theorem accepted_counted : Rule.Accepted counted :=
  Rule.accepted_of_isOk _ (by decide +kernel) (by decide +kernel)

end Sample

theorem compile_line_sample :
    IsLine Sample.line ∧ IsDefinition Sample.line "n" Sample.tokens ∧
      valueRule Sample.digits 7 Sample.tokens = some Sample.counted ∧ Rule.Accepted Sample.counted ∧
      compile (.over Sample.digits "rules" .stop 7) Sample.line =
        defining Sample.digits "n" Sample.counted := by
  have known : valueRule Sample.digits 7 Sample.tokens = some Sample.counted := by rfl
  refine ⟨Sample.isLine_line, Sample.isDefinition_line, known, Sample.accepted_counted, ?_⟩
  exact ((compile_line Sample.digits "rules" .stop 7 Sample.isLine_line).1 "n" Sample.tokens
    Sample.isDefinition_line).1 _ known Sample.accepted_counted

end Definition

end Rulebook

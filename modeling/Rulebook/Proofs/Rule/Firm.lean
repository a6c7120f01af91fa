import Rulebook.Proofs.Rule.Occurrence

/-!
# Rules with leaves that can be trusted

A pattern can stand in a group of a larger pattern if the matcher accepts it by itself, or if it is
the pattern of a rule all of whose leaves are accepted (`Rule.Trusted`). Such a rule need not be
accepted by itself, because its pattern may be too large. If all leaves of a rule can be trusted, the
patterns of the rule are scanned to the tokens of the rule, as they stand (`Rule.Firm.scan_namedPattern`)
and between anchors (`Rule.Firm.scan_anchor`).
-/

namespace Rulebook

open Pattern
open Token (scan Clean paren)

namespace Rule

/-! ### Patterns that can be leaves -/

/-- True of the pattern of a leaf that is accepted, and of the pattern of a rule whose leaves are. -/
def Trusted (source : Bytes) : Prop :=
  Accepted (regex 0 source) ∨ ∃ r, Sound r ∧ r.kind ≠ .regex ∧ source = r.pattern

theorem head?_pattern {r : Rule} (kind : r.kind ≠ .regex) : r.pattern.head? ≠ some 63 := by
  cases r with
  | regex => exact absurd rfl kind
  | text tag literal => exact head?_escape literal
  | combine tag how entries => simp [pattern, assemble_combine]

theorem fresh_nil : Fresh [] := by simp [Fresh]

theorem fresh_paren (s : List Scalar) : Fresh (paren :: s) := by
  simp only [Fresh, List.head?_cons, Option.map_some, Token.char_paren]
  decide

theorem scalars_close (p k : Bytes) : (p ++ 41 :: k).scalars = p.scalars ++ paren :: k.scalars := by
  rw [Bytes.scalars_append_ascii _ (by decide), Bytes.scalars_cons_ascii (by decide)]
  rfl

/-- The pattern of a rule that is scanned without a fault is scanned to the tokens of the rule. -/
theorem Sound.leafTokens_pattern {r : Rule} (sound : Sound r) {y : List Scalar} (fresh : Fresh y)
    (clean : Clean (scan (r.pattern.scalars ++ y))) : leafTokens r.pattern = tokens false r := by
  by_cases kind : r.kind = .regex
  · cases r with
    | regex tag source => rfl
    | _ => cases kind
  · refine leafTokens_of_scan ?_
    obtain ⟨scanned, -⟩ := sound.scans false fresh [] (mayFollow_nil kind) (by
      rwa [List.append_nil])
    rwa [List.append_nil, Bytes.scalars_nil, Token.scan_nil, List.append_nil] at scanned

theorem Trusted.pasteable {source : Bytes} (trusted : Trusted source) {y : List Scalar}
    (fresh : Fresh y) : Pasteable (fun z => Clean (scan (z ++ y))) source := by
  rcases trusted with accepted | ⟨r, sound, kind, rfl⟩
  · exact (leaf_of_accepted accepted).pasteable y
  · refine ⟨head?_pattern kind, fun k clean => ?_⟩
    have same := sound.leafTokens_pattern (fresh_paren (k.scalars ++ y)) (by
      rwa [List.append_assoc, List.cons_append] at clean)
    have closes : Bytes.scalars (41 :: k) = paren :: k.scalars :=
      Bytes.scalars_cons_ascii (by decide) k
    rw [same, ← closes, pattern, ← Bytes.scalars_append_ascii _ (by decide)]
    rw [← closes, pattern, ← Bytes.scalars_append_ascii _ (by decide)] at clean
    obtain ⟨scanned, rest, -⟩ := sound.scans false fresh (41 :: k) (mayFollow_close k r) clean
    exact ⟨scanned, rest⟩

/-- The tokens of such a pattern close as many groups as they open, wherever it stands. -/
theorem Trusted.balanced {source : Bytes} (trusted : Trusted source) {s : List Scalar}
    (clean : Clean (scan (source.scalars ++ paren :: s))) : Token.Balanced (leafTokens source) := by
  rcases trusted with accepted | ⟨r, sound, kind, rfl⟩
  · exact balanced_of_readable (leaf_of_accepted accepted).readable
  · rw [sound.leafTokens_pattern (fresh_paren s) clean]
    exact balanced_tokens false r (fun tag source eq => absurd (eq ▸ rfl) kind) sound.even

/-- A rule whose entries have valid names, and whose leaves have patterns that can be trusted. -/
structure Firm (r : Rule) : Prop where
  names : ∀ e ∈ reach r.entries, e.name = [] ∨ isValidName e.name = true
  leaves : ∀ e ∈ (⟨[], r⟩ : Entry Rule) :: reach r.entries, ∀ tag source,
    e.rule = regex tag source → Trusted source

theorem Sound.firm {r : Rule} (sound : Sound r) : Firm r where
  names := sound.names
  leaves e mem tag source eq := by
    have accepted : Accepted e.rule := by
      rcases List.mem_cons.1 mem with rfl | mem
      · exact sound.leaf tag source eq
      · exact sound.leaves e mem tag source eq
    rw [eq] at accepted
    exact .inl accepted

/-- The pattern of a rule whose leaves are accepted can be trusted as a leaf. -/
theorem Sound.trusted {r : Rule} (sound : Sound r) : Trusted r.pattern := by
  by_cases leaf : r.kind = .regex
  · cases r with
    | regex tag source => exact .inl (sound.leaf tag source rfl)
    | _ => cases leaf
  · exact .inr ⟨r, sound, leaf, rfl⟩

/-! ### Scanning -/

/-- The pattern of a leaf stands before a parenthesis. -/
theorem Occurs.leaf {tag : Nat} {source : Bytes} {y : List Scalar}
    (occurs : Occurs (fun z => Clean (scan (z ++ y))) true (regex tag source)) :
    ∃ t : Bytes, Clean (scan (source.scalars ++ paren :: (t.scalars ++ y))) := by
  obtain ⟨_, ⟨t, rfl⟩, clean⟩ := occurs
  rw [assemble, scalars_close, List.append_assoc] at clean
  exact ⟨t, clean⟩

section

variable {r : Rule} (firm : Firm r) {y : List Scalar} (fresh : Fresh y)

include firm fresh

theorem Firm.scannable : ∀ e ∈ reach r.entries, Scannable (fun z => Clean (scan (z ++ y))) e :=
  fun e mem => ⟨firm.names e mem, fun tag source eq =>
    (firm.leaves e (List.mem_cons_of_mem _ mem) tag source eq).pasteable fresh⟩

theorem Firm.scans : Scans (fun z => Clean (scan (z ++ y))) true r :=
  scan_rule (lasting_clean fresh) true [] r
    ⟨.inl rfl, fun tag source eq => (firm.leaves _ (List.mem_cons_self ..) tag source eq).pasteable fresh⟩
    (firm.scannable fresh)

/-- The pattern of each leaf of a rule stands before a parenthesis in the rule's pattern. -/
theorem Firm.stands (occurs : Occurs (fun z => Clean (scan (z ++ y))) true r) {e : Entry Rule}
    (mem : e ∈ reach r.entries) {tag : Nat} {source : Bytes} (leaf : e.rule = regex tag source) :
    ∃ t : Bytes, Clean (scan (source.scalars ++ paren :: (t.scalars ++ y))) := by
  have alone : literal? e.name e.rule = none := by rw [leaf]; rfl
  have there := occurs.reach (lasting_clean fresh) (firm.scannable fresh) e mem alone
  rw [leaf] at there
  exact there.leaf

/-- In a pattern that is scanned without a fault, all leaves of a rule close as many groups as they
    open. -/
theorem Firm.even (occurs : Occurs (fun z => Clean (scan (z ++ y))) true r) :
    ∀ e ∈ reach r.entries, Even e.rule := by
  intro e mem tag source leaf
  obtain ⟨t, clean⟩ := firm.stands fresh occurs mem leaf
  exact (firm.leaves e (List.mem_cons_of_mem _ mem) tag source leaf).balanced clean

end

/-! ### Patterns that can be read -/

theorem clean_of_parse {source : Bytes} {piece : Piece} (parsed : Piece.parse source = .ok piece) :
    Clean (scan source.scalars) := by
  obtain ⟨whole, scanned⟩ := Piece.scan_of_parse parsed
  exact ⟨whole, scanned⟩

theorem clean_of_parse_anchor {p : Bytes} {piece : Piece}
    (parsed : Piece.parse (anchor p) = .ok piece) : Clean (scan (p ++ 41 :: [36]).scalars) := by
  have clean := clean_of_parse parsed
  rw [Rule.scan_anchor] at clean
  rw [scalars_close]
  exact (Clean.append_iff (a := [.ok .caret, .ok (.enclose [])])).1 clean |>.2

/-- The pattern of a rule that can be read stands in itself. -/
theorem occurs_of_parse {r : Rule} (kind : r.kind ≠ .regex) {piece : Piece}
    (parsed : Piece.parse r.namedPattern = .ok piece) :
    Occurs (fun z => Clean (scan (z ++ []))) true r := by
  have clean := clean_of_parse parsed
  refine ⟨[], mayFollow_nil kind, ?_⟩
  simpa [namedPattern] using clean

theorem Firm.even_of_parse {r : Rule} (firm : Firm r) {piece : Piece}
    (parsed : Piece.parse r.namedPattern = .ok piece) : ∀ e ∈ reach r.entries, Even e.rule := by
  by_cases kind : r.kind = .regex
  · cases r with
    | regex => nofun
    | _ => cases kind
  · exact firm.even fresh_nil (occurs_of_parse kind parsed)

/-- The pattern of a rule that can be read is scanned to the tokens of the rule. -/
theorem Firm.scan_namedPattern {r : Rule} (firm : Firm r) {piece : Piece}
    (parsed : Piece.parse r.namedPattern = .ok piece) :
    scan r.namedPattern.scalars = (tokens true r).map .ok := by
  by_cases kind : r.kind = .regex
  · cases r with
    | regex tag source =>
      obtain ⟨whole, scanned⟩ := Piece.scan_of_parse parsed
      have same : leafTokens source = whole := leafTokens_of_scan scanned
      rwa [tokens, same]
    | _ => cases kind
  · have clean : Clean (scan ((assemble true r ++ []).scalars ++ [])) := by
      simpa [namedPattern] using clean_of_parse parsed
    obtain ⟨scanned, -⟩ := firm.scans fresh_nil [] (mayFollow_nil kind) clean
    simpa [namedPattern] using scanned

/-- The pattern of a rule between anchors is scanned to the tokens of the rule between anchors. -/
theorem Firm.scan_anchor {r : Rule} (firm : Firm r) {piece : Piece}
    (parsed : Piece.parse (anchor r.namedPattern) = .ok piece) :
    scan (anchor r.namedPattern).scalars = (anchored (tokens true r)).map .ok := by
  have clean := clean_of_parse_anchor parsed
  by_cases kind : r.kind = .regex
  · cases r with
    | regex tag source =>
      have trusted := firm.leaves _ (List.mem_cons_self ..) tag source rfl
      have dollar : Bytes.scalars [36] = [Scalar.ascii 36] := rfl
      rw [scalars_close] at clean
      obtain ⟨stops, -⟩ := (trusted.pasteable fresh_nil).stops [36] (by
        simpa [namedPattern, assemble] using clean)
      rw [Rule.scan_anchor, ← dollar]
      simp only [namedPattern, assemble, tokens]
      rw [stops, dollar, scan_paren, scan_dollar]
      simp [anchored]
    | _ => cases kind
  · exact (scan_alone kind (fun _ => firm.scans) (by decide) clean).2

end Rule

end Rulebook

import Rulebook.Proofs.Definition.Depth

/-!
# The bounds that a compilation keeps

A marker moves to the places between it and the end of its source and to no other, and no compilation
asks it for another. With the grammar of definitions nothing but an error ends a compilation, and
groups are read at most four levels deep: `Definition.compile_in_bounds`.
-/

namespace Rulebook

namespace Definition

/-- True of an error as a reason to halt. -/
def Halt.IsError (halt : Halt) : Prop := ∃ e, halt = .error e

/-- A reason to halt that is in range and settled is an error. -/
theorem isError_of_settled {halt : Halt} (inRange : halt.InRange) (settled : halt.Settled) :
    halt.IsError := by
  cases halt with
  | error e => exact ⟨e, rfl⟩
  | range fault =>
    cases inRange fault rfl
    exact settled.elim
  | endless => exact settled.elim

theorem reads_bootstrap (policy : Policy) (tag : Nat) :
    Settings.Reads ⟨.bootstrap, policy, tag⟩ Halt.IsError where
  rules := ofRules_bootstrap
  errors e := ⟨e, rfl⟩
  value grammar h := by
    refine ⟨fun halt failed => isError_of_settled ?_ ?_⟩
    · exact (inRange_readValue (by rw [grammar]; exact ofRules_bootstrap) h).error halt failed
    · exact (readValue_depth grammar _ _).settled.error halt failed

/-- True of a result that is a registry or an error. -/
def Regular (result : Except Halt Registry) : Prop :=
  (∃ registry, result = .ok registry) ∨ ∃ e, result = .error (.error e)

theorem Within.regular {result : Except Halt Registry} (h : Within Halt.IsError result) :
    Regular result := by
  cases result with
  | ok registry => exact .inl ⟨registry, rfl⟩
  | error halt =>
    obtain ⟨e, rfl⟩ := h.error halt rfl
    exact .inr ⟨e, rfl⟩

theorem regular_compile (options : Options) {grammar : Option Registry}
    (bootstrap : grammar.elim (.ok .bootstrap) Grammar.ofRegistry = .ok .bootstrap) (source : Bytes) :
    Regular (compile { options with grammar := grammar } source).result := by
  refine Within.regular ?_
  unfold compile
  split
  · exact within_error ⟨_, rfl⟩
  · rw [bootstrap]
    exact within_compileWith (reads_bootstrap options.policy options.tag) ..

/-- A marker over a source moves to a place, tells its position and reports what lies before it exactly
    if the place lies neither before the marker nor beyond the source, and no compilation asks for any
    other place, whatever its grammar, its base and its policy. A compilation with the grammar of
    definitions comes to a registry or to an error, and reads groups at most four levels deep. -/
theorem compile_in_bounds {m : Marker} {source : Bytes} (stands : m.Over source) (x : Int)
    (options : Options) (c : Context) (text : Bytes) (base : Int) (more : Nat) :
    (((∃ m', m.seek x = .ok m') ↔ m.position.offset ≤ x ∧ x ≤ source.length) ∧
      ((∃ p, m.locate x = .ok p) ↔ m.position.offset ≤ x ∧ x ≤ source.length) ∧
      ((∃ crossed, m.skip x = .ok crossed) ↔ m.position.offset ≤ x ∧ x ≤ source.length)) ∧
    ((compile options source).result ≠ .error (.range .backwards) ∧
      (compile options source).result ≠ .error (.range .outside)) ∧
    (Regular (compile { options with grammar := none } source).result ∧
      Regular (compile { options with grammar := some .bootstrap } source).result) ∧
    readTokens { c with grammar := .bootstrap } (4 + 1 + more) text base =
        readTokens { c with grammar := .bootstrap } (4 + 1) text base ∧
      readTokens { c with grammar := .bootstrap } (4 + 1) text base ≠ .error .endless := by
  have inRange := inRange_compile options source
  have deep := readTokens_depth (c := { c with grammar := .bootstrap }) rfl more text base
  refine ⟨⟨stands.seek_iff, stands.locate_iff, stands.skip_iff⟩, ⟨fun failed => ?_, fun failed => ?_⟩,
    ⟨regular_compile options rfl source, regular_compile options rfl source⟩, deep.same,
    fun failed => ?_⟩
  · cases inRange.error _ failed _ rfl
  · cases inRange.error _ failed _ rfl
  · exact deep.settled.error _ (deep.same.trans failed)

namespace Sample

/-- A definition with a group. -/
def grouped : Bytes := "a = (b | (c)) ;"

def options : Options := ⟨"rules", .proceed, none, none, 0⟩

def marker : Marker := .start "rules" grouped

def context : Context := ⟨.bootstrap, .empty, marker, grouped, 0⟩

end Sample

open Sample in
theorem compile_in_bounds_grouped :
    marker.Over grouped ∧
      ((∃ m', marker.seek 4 = .ok m') ↔
        marker.position.offset ≤ 4 ∧ (4 : Int) ≤ grouped.length) ∧
      (compile options grouped).result ≠ .error (.range .outside) ∧
      Regular (compile { options with grammar := none } grouped).result ∧
      readTokens { context with grammar := .bootstrap } (4 + 1 + 3) "(b | (c))" 4 =
        readTokens { context with grammar := .bootstrap } (4 + 1) "(b | (c))" 4 :=
  have stands : marker.Over grouped := Marker.over_start "rules" grouped
  have bounds := compile_in_bounds stands 4 options context "(b | (c))" 4 3
  ⟨stands, bounds.1.1, bounds.2.1.2, bounds.2.2.1.1, bounds.2.2.2.1⟩

end Definition

end Rulebook

import Rulebook.Proofs.Definition.PlainReading

/-!
# Sources one after another

A compilation looks at no line before it has come to it and looks at none again. So a source may be
cut after any line break: a compilation of its two parts, the second over the registry that the first
leaves, comes to what a compilation of the whole comes to (`Definition.compile_append`).
-/

namespace Rulebook

open Bytes

/-- Past a text that ends with a line break a line starts. -/
theorem Position.advance_start {s : Bytes} (ended : s.Ended) (filename : Bytes) :
    (start filename).advance s = (start filename).shift s.length (s.count 10) := by
  simp only [advance, shift, start, lastLine_of_ended ended, scalars_nil, List.length_nil, ite_self]
  rfl

namespace Definition

/-- The lines of a text after others come to what they come to by themselves over the registry that
    the others leave. The positions that they report are further on by the length and by the number
    of lines of what stands before them. -/
theorem compile_append {source : Bytes} (ended : source.Ended) (more filename : Bytes)
    (base : Registry) (tag tag₁ tag₂ : Nat) :
    ∃ first second whole,
      (compile (.over base filename .proceed tag₁) source).result = .ok first ∧
      (compile (.over first filename .proceed tag₂) more).result = .ok second ∧
      (compile (.over base filename .proceed tag) (source ++ more)).result = .ok whole ∧
      whole.shape = second.shape ∧
      (compile (.over base filename .proceed tag) (source ++ more)).events =
        (compile (.over base filename .proceed tag₁) source).events ++
          (compile (.over first filename .proceed tag₂) more).events.map
            (Event.shift source.length (source.count 10)) := by
  have lines : cutLines (source ++ more) = cutLines source ++ cutLines more :=
    cutLines_append ended more
  have before : Before (.start filename (source ++ more)) (cutLines source ++ cutLines more) :=
    lines ▸ before_start filename (source ++ more)
  let first := (walk tag₁ (.start filename source) base (cutLines source)).2
  let m := pass (.start filename (source ++ more)) (cutLines source)
  have place : m.position = (Marker.start filename more).position.shift source.length
      (source.count 10) := by
    rw [before.of_append.position_pass (lines_cutLines source), flatten_cutLines]
    exact Position.advance_start ended filename
  obtain ⟨events₁, shape₁⟩ := walk_again tag₁ tag rfl (before_start filename source)
    before.of_append rfl
  obtain ⟨events₂, shape₂⟩ := walk_elsewhere tag₂ tag shape₁ (before_start filename more)
    before.pass place
  refine ⟨first, _, _, ?_, ?_, ?_, shape₂, ?_⟩
  · rw [compile_walk]
  · rw [compile_walk]
  · rw [compile_walk, lines, walk_append]
  · simp only [compile_walk, lines, walk_append]
    rw [events₁, events₂]

namespace Sample

/-- A line that gives another rule to `d`, by way of the name that the line before it has defined. -/
def later : Bytes := "d = n?;"

/-- The rule that the line gives to `d`. -/
def perhaps : Rule := .combine 5 .seq [⟨"n", .combine 5 .optional [⟨[], counted⟩]⟩]

/-- The digits and what the line before defines. -/
def known : Registry := digits.insert "n" counted

theorem isLine_later : IsLine later := ⟨later, by decide, .inl rfl⟩

theorem isDefinition_later :
    IsDefinition later "d" [.literal (.bare (scalars "n")) (some .optional)] := by
  refine ⟨[], " ", " ", "n?", [], [], [], rfl, ⟨by decide, by decide, by decide, by decide, by decide⟩,
    by decide, .last ?_, by decide⟩
  rw [Phrase.Spelled.eq_def]
  exact ⟨scalars "n", scalars "?", rfl, .bare (by decide) (by decide), "?", rfl, rfl⟩

theorem accepted_perhaps : Rule.Accepted perhaps :=
  Rule.accepted_of_isOk _ (by decide +kernel) (by decide +kernel)

end Sample

/-- A definition, and after it one that refers to it and gives another rule to a name of the base. -/
theorem compile_append_redefining :
    Sample.line.Ended ∧
      compile (.over Sample.digits "rules" .proceed 7) Sample.line =
        defining Sample.digits "n" Sample.counted ∧
      compile (.over Sample.known "rules" .proceed 5) Sample.later =
        defining Sample.known "d" Sample.perhaps ∧
      ∃ whole,
        (compile (.over Sample.digits "rules" .proceed 9) (Sample.line ++ Sample.later)).result =
          .ok whole ∧
        whole.shape = (Sample.known.insert "d" Sample.perhaps).shape ∧
        (compile (.over Sample.digits "rules" .proceed 9) (Sample.line ++ Sample.later)).events =
          [.defined "n" 1 Sample.counted.namedPattern, .redefining "d",
            .defined "d" 2 Sample.perhaps.namedPattern] := by
  have ended : Sample.line.Ended := .inr (by decide)
  have first_eq : compile (.over Sample.digits "rules" .proceed 7) Sample.line =
      defining Sample.digits "n" Sample.counted :=
    compile_defining _ _ _ _ Sample.isLine_line Sample.isDefinition_line rfl Sample.accepted_counted
  have second_eq : compile (.over Sample.known "rules" .proceed 5) Sample.later =
      defining Sample.known "d" Sample.perhaps :=
    compile_defining _ _ _ _ Sample.isLine_later Sample.isDefinition_later rfl Sample.accepted_perhaps
  obtain ⟨first, second, whole, first_ok, second_ok, whole_ok, same, events⟩ :=
    compile_append ended Sample.later "rules" Sample.digits 9 7 5
  obtain rfl : Sample.known = first := Except.ok.inj ((congrArg Step.result first_eq).symm.trans first_ok)
  obtain rfl : Sample.known.insert "d" Sample.perhaps = second :=
    Except.ok.inj ((congrArg Step.result second_eq).symm.trans second_ok)
  rw [first_eq, second_eq] at events
  exact ⟨ended, first_eq, second_eq, whole, whole_ok, same, events⟩

end Definition

end Rulebook

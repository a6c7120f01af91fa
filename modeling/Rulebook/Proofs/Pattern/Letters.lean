import Mathlib.Tactic.Common
import Rulebook.Pattern.Reader

/-!
# Runs of letters

A reading that has come to a letter twice in a row does the same for each further one: it reuses the
node that the last one left and goes on as before. What a pattern comes to that goes on with a long
run of a letter is so known from what stands before the run and after it
(`Pattern.Reading.parse_of_endsAfter`).
-/

namespace Rulebook

namespace Pattern

namespace Reading

variable {code : Nat} {r : Reading}

/-- The weight that is noted for a letter. -/
def note (weighing : Bool) : Option Nat := if weighing then some 1 else none

/-- A letter as it is kept. -/
def letter (code : Nat) (weighing : Bool) : Shape := .literal [code] {} (note weighing)

/-- A reading after a letter has come some more times. -/
def letters (code n : Nat) (r : Reading) : Reading :=
  { r with
    top := { r.top with
      exprs := List.replicate n (.char false code) ++ r.top.exprs
      outline := { r.top.outline with
        parts := List.replicate n (letter code r.usage.weighing) ++ r.top.outline.parts } }
    usage := { r.usage with listed := r.usage.listed + n } }

theorem letters_letters (code m n : Nat) (r : Reading) :
    (r.letters code m).letters code n = r.letters code (n + m) := by
  simp only [letters, ← List.append_assoc, List.replicate_append_replicate]
  congr 2
  omega

/-! ### One letter more -/

/-- True of a reading that has come to a letter at least twice in a row, and keeps the node that the
    last one left for the next. -/
structure Steady (code : Nat) (r : Reading) : Prop where
  flags : r.flags = {}
  last : r.last = []
  joined : r.top.outline.joined = false
  parts : ∃ rest, r.top.outline.parts =
    letter code r.usage.weighing :: letter code r.usage.weighing :: rest
  spare : ∃ rest, r.usage.spare = note r.usage.weighing :: rest
  light : r.usage.mustWeigh = false

theorem Steady.letters (steady : r.Steady code) (n : Nat) : (r.letters code n).Steady code where
  flags := steady.flags
  last := steady.last
  joined := steady.joined
  parts := by
    obtain ⟨rest, parts⟩ := steady.parts
    match n with
    | 0 => exact ⟨rest, parts⟩
    | 1 =>
      refine ⟨letter code r.usage.weighing :: rest, ?_⟩
      simp [Reading.letters, parts]
    | n + 2 =>
      refine ⟨List.replicate n (letter code r.usage.weighing) ++ r.top.outline.parts, ?_⟩
      simp [Reading.letters, List.replicate_succ]
  spare := steady.spare
  light := steady.light

/-- A part that is no repetition, and within the limits, changes nothing. -/
theorem measure_eq_ok {source : Bytes} {shape : Shape} (plain : Usage.factor? shape = none)
    (listed : r.usage.listed ≤ maxListed) (light : r.usage.mustWeigh = false)
    (weight : shape.weight ≤ maxWeight) (height : shape.height ≤ maxHeight) :
    r.measure source shape = .ok r := by
  have counted : (r.meter (Usage.count shape)).2 = r := by
    simp [meter, Usage.count, plain, modify, modifyGet, MonadStateOf.modifyGet, StateT.modifyGet,
      StateT.run, pure]
  unfold measure
  simp only [counted, light, Bool.false_eq_true, if_false, Bool.false_and, Nat.not_lt.2 listed,
    Nat.not_lt.2 weight, Nat.not_lt.2 height, decide_false, Bool.and_false]

theorem step_letter (steady : r.Steady code) (few : r.usage.listed + 1 ≤ maxListed)
    (source : Bytes) : r.step source (.char code) = .ok (r.letters code 1) := by
  obtain ⟨flags, groups, ⟨group, around, finished, exprs, ⟨choices, parts, joined⟩⟩, outer, last,
    ⟨listed, counts, made, spare, weighing⟩⟩ := r
  obtain ⟨flags_eq, last_eq, joined_eq, ⟨rest, parts_eq⟩, ⟨others, spare_eq⟩, light⟩ := steady
  dsimp only at flags_eq last_eq joined_eq parts_eq spare_eq few
  subst flags_eq last_eq joined_eq parts_eq spare_eq
  -- the two letters before are merged, and the node that this leaves is taken for the new one
  have added : ∀ r' : Reading, r' = ⟨{}, groups, ⟨group, around, finished, exprs,
        ⟨choices, letter code weighing :: letter code weighing :: rest, false⟩⟩, outer, [],
        ⟨listed, counts, made, note weighing :: others, weighing⟩⟩ →
      r'.step source (.char code) = (r'.letters code 1).measure source (.literal [code] {} none) := by
    rintro _ rfl
    cases weighing <;> rfl
  rw [added _ rfl]
  exact measure_eq_ok rfl few light (by simp [Shape.weight, maxWeight])
    (by simp [Shape.height, maxHeight])

/-! ### Many letters -/

theorem run_append (source : Bytes) {next : Reading} {front : List (Except Fault Token)}
    (h : r.run source front = .ok next) (rest : List (Except Fault Token)) :
    r.run source (front ++ rest) = next.run source rest := by
  induction front generalizing r with
  | nil =>
    cases h
    rfl
  | cons token front ih =>
    rw [List.cons_append]
    cases token with
    | error fault => cases h
    | ok token =>
      rw [run] at h ⊢
      split at h
      · cases h
      · exact ih h

/-- By induction on the number of letters: each leaves the reading as steady as it was. -/
theorem run_letters (steady : r.Steady code) {n : Nat} (few : r.usage.listed + n ≤ maxListed)
    (source : Bytes) (rest : List (Except Fault Token)) :
    r.run source (List.replicate n (.ok (Token.char code)) ++ rest) =
      (r.letters code n).run source rest := by
  induction n generalizing r with
  | zero => rfl
  | succ n ih =>
    have one := step_letter steady (by omega) source
    have fits : (r.letters code 1).usage.listed + n ≤ maxListed := by
      simp only [letters]
      omega
    rw [List.replicate_succ, List.cons_append, run, one]
    dsimp only
    rw [ih (steady.letters 1) fits, letters_letters]

/-! ### Patterns with a run of letters -/

/-- True if the rest of a pattern is read to its end without a fault. -/
def ends (source : Bytes) (r : Reading) (rest : List (Except Fault Token)) : Bool :=
  match r.run source rest with
  | .error _ => false
  | .ok next =>
      match next.finish source with
      | .error _ => false
      | .ok _ => next.outer.isEmpty

theorem parse_iff_ends (source : Bytes) :
    (∃ piece, Piece.parse source = .ok piece) ↔
      start.ends source (Token.scan source.scalars) = true := by
  unfold Piece.parse ends
  cases start.run source (Token.scan source.scalars) with
  | error fault => simp
  | ok next =>
    dsimp only
    cases next.finish source with
    | error fault => simp
    | ok whole =>
      obtain ⟨piece, last⟩ := whole
      cases next.outer.isEmpty <;> simp

/-- Tells a steady reading from others. -/
def isSteady (code : Nat) (r : Reading) : Bool :=
  let noted := note r.usage.weighing
  r.flags == {} && r.last == [] && !r.top.outline.joined && !r.usage.mustWeigh &&
    (match r.top.outline.parts with
      | .literal [a] f x :: .literal [b] g y :: _ =>
          a == code && b == code && f == {} && g == {} && x == noted && y == noted
      | _ => false) &&
    r.usage.spare.head? == some noted

theorem steady_of_isSteady (h : r.isSteady code = true) : r.Steady code := by
  unfold isSteady at h
  simp only [Bool.and_eq_true, beq_iff_eq, Bool.not_eq_true'] at h
  obtain ⟨⟨⟨⟨⟨flags, last⟩, joined⟩, light⟩, parts⟩, spare⟩ := h
  refine ⟨flags, last, joined, ?_, List.head?_eq_some_iff.1 spare, light⟩
  split at parts
  · rename_i rest eq
    simp only [Bool.and_eq_true, beq_iff_eq] at parts
    obtain ⟨⟨⟨⟨⟨rfl, rfl⟩, rfl⟩, rfl⟩, rfl⟩, rfl⟩ := parts
    exact ⟨rest, eq⟩
  · cases parts

/-- Whether a pattern is read to its end that goes on after `front` with a letter, some times, and
    then `rest`. Nothing is said if the reading is not steady after `front`. -/
def endsAfter (source : Bytes) (front : List Token) (code n : Nat) (rest : List Token) :
    Option Bool :=
  match start.run source (front.map .ok) with
  | .error _ => none
  | .ok r =>
      if r.isSteady code && decide (r.usage.listed + n ≤ maxListed) then
        some ((r.letters code n).ends source (rest.map .ok))
      else none

/-- What a run of letters comes to need not be read letter by letter. -/
theorem parse_of_endsAfter {source : Bytes} {front rest : List Token} {n : Nat} {ended : Bool}
    (scanned : Token.scan source.scalars =
      (front ++ (List.replicate n (Token.char code) ++ rest)).map .ok)
    (h : endsAfter source front code n rest = some ended) :
    (∃ piece, Piece.parse source = .ok piece) ↔ ended = true := by
  unfold endsAfter at h
  split at h
  · cases h
  · rename_i r begun
    split at h
    · rename_i fits
      rw [Bool.and_eq_true, decide_eq_true_iff] at fits
      obtain ⟨isSteady, few⟩ := fits
      have steady := steady_of_isSteady isSteady
      cases h
      rw [parse_iff_ends, scanned, List.map_append, List.map_append, List.map_replicate, ends,
        run_append source begun, run_letters steady few]
      rfl
    · cases h

end Reading

end Pattern

end Rulebook

import Rulebook.Proofs.Definition.Forms
import Rulebook.Proofs.Definition.Walk

/-!
# Where failures point

A definition that fails is reported with a place on its line, and what is wrong with it stands there
(`Definition.compile_points`): the literal that cannot be read or the name that has no rule, which is
the leftmost literal of the value with a fault however deep in groups it stands, or else the name that
is defined.
-/

namespace Rulebook

open Bytes

namespace Definition

open Bootstrap (comment ruleEntry IsNamed DefinitionAt)
open Rule (PartAt)

/-- True of an error at an offset of a source if it is the fault of a literal of a value that starts at
    an offset as well, and no literal of the value has a fault before it. -/
structure Foremost (known : Registry) (value : Bytes) (start offset : Int) (e : Error) : Prop where
  mem : ∃ x ∈ literals (value.length + 1) value start, fault? known x.1 x.2 = some (offset, e)
  least : ∀ y ∈ literals (value.length + 1) value start, ∀ offset' e',
    fault? known y.1 y.2 = some (offset', e') → offset ≤ offset'

/-- What is known of a failure with a cause: the lines of the source before its line, the line with its
    offset, and the parts of the definition on the line. -/
structure PointsAt (filename source : Bytes) (known : Registry) (start : Nat) (l : Bytes)
    (title value : Tree) (d : Error.Diagnosis) (e : Error) (k : Nat) : Prop where
  text : d.text = l.trim
  inside : k < l.length
  position : d.position = ⟨filename, (start + k : Nat), 1 + (source.take (start + k)).count 10,
    1 + (lastLine (source.take (start + k))).scalars.length⟩
  /-- An error that is not of the value, such as a pattern that the matcher refuses. -/
  other : ofValue e = false → title.text <+: source.drop (start + k)
  literal : ∀ n, faulty? e = some n → n <+: source.drop (start + k) ∧
    Foremost known value.text (start + value.offset) (start + k : Nat) e

/-- True of a failure with a cause that points at what is wrong with a definition of a source. -/
def Points (base : Registry) (filename source : Bytes) (tag : Nat) (d : Error.Diagnosis) (e : Error) :
    Prop :=
  ∃ front l back known definition title value k,
    cutLines source = front ++ l :: back ∧
    (compile (.over base filename .proceed tag) front.flatten).result = .ok known ∧
    ruleEntry.Matches l ∧ ruleEntry.matcher.descend l 0 = .ok definition ∧
    definition.child? "name" = some title ∧ definition.child? "value" = some value ∧
    IsNamed l title.text ∧
    PointsAt filename source known front.flatten.length l title value d e k

/-! ### Places of a source -/

theorem prefix_of_partAt {l n : Bytes} {k : Nat} (part : PartAt l k n) (before after : Bytes) :
    n <+: (before ++ (l ++ after)).drop (before.length + k) := by
  have fits := part.fits
  have here := part.eq
  rw [Bytes.slice, Nat.add_sub_cancel_left] at here
  rw [List.drop_length_add_append, List.drop_append_of_le_length (by omega)]
  exact (here ▸ List.take_prefix n.length (l.drop k)).trans (List.prefix_append _ _)

/-- A fault of a literal is an error of a value. -/
theorem ofValue_of_faulty {e : Error} {n : Bytes} (named : faulty? e = some n) : ofValue e = true := by
  cases e with
  | unknownRule => rfl
  | misread => rfl
  | _ => cases named

/-- What is wrong with a literal depends on tags as little as the rest. -/
theorem fault?_of_shape {r r' : Registry} (registry : r'.shape = r.shape) (base : Int) (t : Tree) :
    fault? r' base t = fault? r base t := by
  have known (n : Bytes) : (r'.get? n).isNone = (r.get? n).isNone := by
    have shapes := congrArg (fun r : Registry => (r.get? n).isNone) registry
    simpa only [Registry.get?_shape, Option.isNone_map] using shapes
  unfold fault?
  simp only [known]

/-- The place of a failure in a source. -/
theorem position_of_failed (filename : Bytes) {front back : List Bytes} {l : Bytes}
    (lines : Lines (front ++ l :: back)) {k : Nat} (inside : k ≤ l.length) :
    let source := (front ++ l :: back).flatten
    ((Position.start filename).advance front.flatten).advance (l.take k) =
      ⟨filename, (front.flatten.length + k : Nat),
        1 + (source.take (front.flatten.length + k)).count 10,
        1 + (lastLine (source.take (front.flatten.length + k))).scalars.length⟩ := by
  intro source
  have taken : source.take (front.flatten.length + k) = front.flatten ++ l.take k := by
    rw [show source = front.flatten ++ (l ++ back.flatten) by simp [source],
      List.take_length_add_append, List.take_append_of_le_length inside]
  rw [Position.advance_append lines.ended, taken]
  simp only [Position.advance, Position.start, List.length_append, List.length_take_of_le inside,
    Position.mk.injEq, true_and, ite_self, and_true]
  omega

/-- What is known of an outcome that is a failure with a cause. -/
theorem failsAt_of_failed {c : Context} {l : Bytes} (at_ : c.At l) {k : Nat} {e : Error}
    (failed : outcome c l = .failed k (some e)) :
    k < l.length ∧ ruleEntry.Matches l ∧ ∃ t n v, ruleEntry.matcher.descend l 0 = .ok t ∧
      DefinitionAt l 0 t n v ∧ FailsAt c l n v k e := by
  cases isComment : comment.recognises l with
  | true =>
    obtain ⟨t, built, -⟩ := descend_comment isComment
    rw [outcome_comment c isComment built] at failed
    cases failed
  | false =>
    cases isEntry : ruleEntry.recognises l with
    | true =>
      obtain ⟨t, n, v, built, -, parts⟩ := descend_definition isEntry
      rw [outcome_definition c isEntry built parts.name_part parts.value_part] at failed
      obtain ⟨inside, e', same, fails⟩ := settle_failed at_ parts failed
      cases same
      exact ⟨inside, Rule.recognises_iff.1 isEntry, t, n, v, built, parts, fails⟩
    | false =>
      rw [outcome_other c isComment isEntry] at failed
      cases (remainder_failed failed).2.2

/-- A failure is reported by a line that fails. -/
theorem failed_of_mem {o : Outcome} {p : Position} {l : Bytes} {r : Registry} {event : Event}
    {d : Error.Diagnosis} {e : Error} (mem : event ∈ o.events p l r) (is : event.failure? = some d)
    (cause : d.cause = some e) :
    ∃ k, o = .failed k (some e) ∧ d = ⟨p.advance (l.take k), l.trim, some e⟩ := by
  cases o with
  | blank => cases mem
  | comment content =>
    cases List.mem_singleton.1 mem
    cases is
  | defined name rule =>
    obtain mem | mem := List.mem_append.1 mem
    · split at mem
      · cases List.mem_singleton.1 mem
        cases is
      · cases mem
    · cases List.mem_singleton.1 mem
      cases is
  | failed k cause' =>
    cases List.mem_singleton.1 mem
    cases is
    cases cause
    exact ⟨k, rfl, rfl⟩

/-- The leftmost fault of a line is the leftmost fault of a source. -/
theorem Leftmost.foremost {c : Context} {l n value : Bytes} {k : Nat} {e : Error} {known : Registry}
    {start offset : Int} (registry : known.shape = c.registry.shape) (place : c.offset k = offset)
    (h : Leftmost c l (literals (value.length + 1) value start) k e n) :
    Foremost known value start offset e := by
  subst place
  refine ⟨?_, fun y mem offset e' fault => h.least y mem offset e' ?_⟩
  · obtain ⟨x, mem, fault⟩ := h.mem
    exact ⟨x, mem, (fault?_of_shape registry _ _).trans fault⟩
  · exact (fault?_of_shape registry _ _).symm.trans fault

/-- A compilation that goes on after every failure comes to a registry, and every failure with a cause
    points at what is wrong with its definition. -/
theorem compile_points (base : Registry) (filename source : Bytes) (tag : Nat) :
    (∃ last, (compile (.over base filename .proceed tag) source).result = .ok last) ∧
      ∀ d ∈ failures (compile (.over base filename .proceed tag) source).events, ∀ e,
        d.cause = some e → Points base filename source tag d e := by
  rw [compile_walk]
  refine ⟨⟨_, rfl⟩, fun d mem e cause => ?_⟩
  have lines := lines_cutLines source
  have before := before_start filename source
  obtain ⟨event, mem, is⟩ := List.mem_filterMap.1 mem
  obtain ⟨front, l, back, eq, mem⟩ := mem_walk.1 mem
  rw [eq] at lines before
  have whole : (front ++ l :: back).flatten = source := by rw [← eq, flatten_cutLines]
  have front_eq := (lines.sublist (List.sublist_append_left ..)).cutLines_flatten
  have place : (pass (.start filename source) front).position =
      (Position.start filename).advance front.flatten :=
    before.of_append.position_pass (lines.sublist (List.sublist_append_left ..))
  have before₀ := before_start filename front.flatten
  rw [front_eq] at before₀
  have registry := (walk_again tag tag (Eq.refl base.shape) before.of_append before₀ rfl).2
  obtain ⟨k, failed, rfl⟩ := failed_of_mem mem is cause
  obtain ⟨more, text⟩ := before.pass
  have at_ : Context.At ⟨.bootstrap, (walk tag (.start filename source) base front).2,
      pass (.start filename source) front, l.trim,
      tag + (pass (.start filename source) front).position.offset.toNat⟩ l :=
    ⟨rfl, back.flatten ++ more, by rw [text, List.flatten_cons, List.append_assoc]⟩
  obtain ⟨inside, taken, t, n, v, built, parts, fails⟩ := failsAt_of_failed at_ failed
  have start : (pass (.start filename source) front).position.offset = front.flatten.length := by
    rw [place]
    simp [Position.advance, Position.start]
  have here {n : Bytes} (part : PartAt l k n) : n <+: source.drop (front.flatten.length + k) := by
    rw [← whole, List.flatten_append, List.flatten_cons]
    exact prefix_of_partAt part front.flatten back.flatten
  refine ⟨front, l, back, _, t, n, v, k, eq, by rw [compile_walk, front_eq], taken, built,
    parts.name_part, parts.value_part, Bootstrap.isNamed_of_definition (Rule.recognises_iff.2 taken)
      built parts.name_part, rfl, inside, ?_, fun other => ?_, fun cited named => ?_⟩
  · rw [place]
    have position := position_of_failed filename lines inside.le
    rw [whole] at position
    exact position
  · obtain ⟨-, part⟩ | ⟨own, -⟩ := fails
    · exact here part
    · rw [own] at other
      cases other
  · obtain ⟨placeless, -⟩ | ⟨-, first⟩ := fails
    · cases (ofValue_of_faulty named).symm.trans placeless.other
    · have first := first cited named
      rw [Context.from, start] at first
      refine ⟨here first.part, first.foremost registry ?_⟩
      rw [Context.offset, start]
      exact (Int.natCast_add ..).symm

end Definition

end Rulebook

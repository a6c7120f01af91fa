import Rulebook.Proofs.Definition.Policy
import Rulebook.Proofs.Definition.Walk

/-!
# Lines that fail

A line that fails leaves the registry as it was, so the lines after it come to what they would come to
without it. A source without its lines that fail compiles under any policy, and to the same rules and
comments as the whole source: `Definition.compile_without`.
-/

namespace Rulebook

open Bytes

namespace Definition

/-- The numbers of the lines on which events report a failure. -/
def failedLines (events : List Event) : List Int := (failures events).map (·.position.line)

/-- Lines, counted from a number, without those that bear some numbers. -/
def dropLines (numbers : List Int) : Int → List Bytes → List Bytes
  | _, [] => []
  | n, l :: rest =>
      if n ∈ numbers then dropLines numbers (n + 1) rest else l :: dropLines numbers (n + 1) rest

/-- A source without the lines that bear some numbers, counted from one. -/
def withoutLines (numbers : List Int) (source : Bytes) : Bytes :=
  (dropLines numbers 1 (cutLines source)).flatten

theorem sublist_dropLines (numbers : List Int) (n : Int) (ls : List Bytes) :
    (dropLines numbers n ls).Sublist ls := by
  induction ls generalizing n with
  | nil => exact .slnil
  | cons l rest ih =>
    rw [dropLines]
    split
    · exact (ih _).cons l
    · exact (ih _).cons_cons l

theorem failedLines_append (es es' : List Event) :
    failedLines (es ++ es') = failedLines es ++ failedLines es' := by
  simp only [failedLines, failures, List.filterMap_append, List.map_append]

/-- True of an outcome that is a failure. -/
def Outcome.IsFailed (o : Outcome) : Prop := ∃ k cause, o = .failed k cause

theorem Outcome.IsFailed.of_shape {o o' : Outcome} (h : o.IsFailed) (same : o'.shape = o.shape) :
    o'.IsFailed := by
  obtain ⟨k, cause, rfl⟩ := h
  obtain rfl | ⟨name, rule, rule', eq, -⟩ := Outcome.eq_or_defined same
  · exact ⟨k, cause, rfl⟩
  · cases eq

variable {tag tag' : Nat} {m m' : Marker} {r r' : Registry} {l : Bytes} {ls rest : List Bytes}

/-- What does not fail reports no failure. -/
theorem failures_events {o : Outcome} (fine : ¬ o.IsFailed) (p : Position) (l : Bytes) (r : Registry) :
    failures (o.events p l r) = [] := by
  cases o with
  | blank => rfl
  | comment => rfl
  | defined name rule =>
    simp only [Outcome.events]
    split <;> rfl
  | failed k cause => exact absurd ⟨k, cause, rfl⟩ fine

/-- A line that fails reports that on itself, and any other reports no failure. -/
theorem mem_failedLines_events (lines : Lines (l :: rest)) (before : Before m (l :: rest)) {x : Int} :
    x ∈ failedLines ((outcomeAt tag m r l).events m.position l r) ↔
      x = m.position.line ∧ (outcomeAt tag m r l).IsFailed := by
  by_cases failed : (outcomeAt tag m r l).IsFailed
  · obtain ⟨k, cause, failed⟩ := failed
    obtain ⟨more, text⟩ := before
    have inside := failed_lt ⟨rfl, rest.flatten ++ more, by
      rw [text, List.flatten_cons, List.append_assoc]⟩ failed
    have line := Position.line_advance (p := m.position) (lines.notMem_take inside)
    rw [failed]
    change x ∈ [(m.position.advance (l.take k)).line] ↔ _
    rw [line, List.mem_singleton]
    exact ⟨fun same => ⟨same, k, cause, rfl⟩, And.left⟩
  · rw [failedLines, failures_events failed]
    exact ⟨nofun, fun both => absurd both.2 failed⟩

/-- Past a line that is not the last the next line starts. -/
theorem Before.line_forward (lines : Lines (l :: rest)) (some_line : rest ≠ [])
    (before : Before m (l :: rest)) :
    (m.forward l.length).position.line = m.position.line + 1 := by
  rw [before.position]
  cases lines with
  | last => exact absurd rfl some_line
  | cons whole => simp [Position.advance, List.count_eq_zero.2 whole]

/-- Past some lines, with a line to come, as many lines have been passed. -/
theorem Before.line_pass (lines : Lines (ls ++ l :: rest)) (before : Before m (ls ++ l :: rest)) :
    (Definition.pass m ls).position.line = m.position.line + ls.length := by
  induction ls generalizing m with
  | nil => simp [Definition.pass]
  | cons first others ih =>
    have later := ih lines.tail before.forward
    rw [before.line_forward lines (by simp)] at later
    rw [List.length_cons, show Definition.pass m (first :: others) =
      Definition.pass (m.forward first.length) others from rfl, later]
    omega

theorem mem_failedLines {es : List Event} {x : Int} :
    x ∈ failedLines es ↔ ∃ event ∈ es, x ∈ failedLines [event] := by
  simp only [failedLines, failures, List.mem_map, List.mem_filterMap, List.mem_singleton,
    exists_eq_left]
  constructor
  · rintro ⟨d, ⟨event, mem, is⟩, line⟩
    exact ⟨event, mem, d, is, line⟩
  · rintro ⟨event, mem, d, is, line⟩
    exact ⟨d, ⟨event, mem, is⟩, line⟩

/-- The numbers of the lines that fail are reported, and no others. -/
theorem mem_failedLines_walk (lines : Lines ls) (before : Before m ls) {x : Int} :
    x ∈ failedLines (walk tag m r ls).1 ↔
      ∃ front l back, ls = front ++ l :: back ∧ x = m.position.line + front.length ∧
        (outcomeAt tag (pass m front) (walk tag m r front).2 l).IsFailed := by
  have tail {front back : List Bytes} {l : Bytes} (eq : ls = front ++ l :: back) :
      Lines (l :: back) := (eq ▸ lines).sublist (List.sublist_append_right ..)
  rw [mem_failedLines]
  constructor
  · rintro ⟨event, mem, here⟩
    obtain ⟨front, l, back, rfl, reported⟩ := mem_walk.1 mem
    obtain ⟨rfl, failed⟩ := (mem_failedLines_events (tail rfl) before.pass).1
      (mem_failedLines.2 ⟨event, reported, here⟩)
    exact ⟨front, l, back, rfl, before.line_pass lines, failed⟩
  · rintro ⟨front, l, back, rfl, rfl, failed⟩
    obtain ⟨event, mem, here⟩ := mem_failedLines.1
      ((mem_failedLines_events (tail rfl) before.pass).2 ⟨(before.line_pass lines).symm, failed⟩)
    exact ⟨event, mem_walk.2 ⟨front, l, back, rfl, mem⟩, here⟩

/-- True of numbers that tell which of some lines fail. -/
def Tells (numbers : List Int) (tag : Nat) (m : Marker) (r : Registry) (ls : List Bytes) : Prop :=
  ∀ i < ls.length, m.position.line + i ∈ numbers ↔
    m.position.line + i ∈ failedLines (walk tag m r ls).1

theorem Tells.head {numbers : List Int} (tells : Tells numbers tag m r (l :: rest))
    (lines : Lines (l :: rest)) (before : Before m (l :: rest)) :
    m.position.line ∈ numbers ↔ (outcomeAt tag m r l).IsFailed := by
  have here := tells 0 (by simp)
  rw [Int.natCast_zero, Int.add_zero] at here
  rw [here, mem_failedLines_walk lines before]
  constructor
  · rintro ⟨front, l', back, eq, same, failed⟩
    obtain rfl : front = [] := List.length_eq_zero_iff.1 (by omega)
    cases eq
    exact failed
  · exact fun failed => ⟨[], l, rest, rfl, by simp, failed⟩

theorem Tells.tail {numbers : List Int} (tells : Tells numbers tag m r (l :: rest))
    (lines : Lines (l :: rest)) (before : Before m (l :: rest)) :
    Tells numbers tag (m.forward l.length) ((outcomeAt tag m r l).register r) rest := by
  intro i inside
  have some_line : rest ≠ [] := List.ne_nil_of_length_pos (by omega)
  have here := tells (i + 1) (by simpa using inside)
  rw [walk, failedLines_append, List.mem_append, mem_failedLines_events lines before] at here
  have number : (m.forward l.length).position.line + (i : Int) =
      m.position.line + (i + 1 : Nat) := by
    rw [before.line_forward lines some_line]
    omega
  rw [number, here]
  exact ⟨fun h => h.resolve_left fun same => by omega, .inr⟩

theorem Before.dropLines_tail (lines : Lines (l :: rest)) (before : Before m (l :: rest))
    (numbers : List Int) :
    dropLines numbers (m.position.line + 1) rest =
      dropLines numbers (m.forward l.length).position.line rest := by
  cases rest with
  | nil => rfl
  | cons => rw [before.line_forward lines (by simp)]

theorem Outcome.comments_shift {o o' : Outcome} (same : o'.shape = o.shape) (p p' : Position)
    (l : Bytes) (r r' : Registry) :
    (comments (o'.events p' l r')).map Prod.snd = (comments (o.events p l r)).map Prod.snd := by
  have quiet (name : Bytes) (rule : Rule) (p : Position) (r : Registry) :
      comments ((Outcome.defined name rule).events p l r) = [] := by
    simp only [events]
    split <;> rfl
  obtain rfl | ⟨name, rule, rule', rfl, rfl, -⟩ := Outcome.eq_or_defined same
  · cases o' with
    | defined name rule => rw [quiet, quiet]
    | _ => rfl
  · rw [quiet, quiet]

/-- Without the lines that fail the others come to the same, and none of them fails. By induction on
    the lines: the registries that are handed on have the same shape. -/
theorem walk_without (tag' : Nat) {numbers : List Int} (lines : Lines ls) (before : Before m ls)
    (tells : Tells numbers tag m r ls) (registry : r'.shape = r.shape)
    (before' : Before m' (dropLines numbers m.position.line ls)) :
    let full := walk tag m r ls
    let part := walk tag' m' r' (dropLines numbers m.position.line ls)
    failures part.1 = [] ∧ (comments part.1).map Prod.snd = (comments full.1).map Prod.snd ∧
      part.2.shape = full.2.shape := by
  induction ls generalizing m m' r r' with
  | nil => exact ⟨rfl, rfl, registry⟩
  | cons l rest ih =>
    have rest_eq := before.dropLines_tail lines numbers
    have comments_append (es es' : List Event) :
        comments (es ++ es') = comments es ++ comments es' := List.filterMap_append ..
    by_cases failed : (outcomeAt tag m r l).IsFailed
    · have gone : dropLines numbers m.position.line (l :: rest) =
          dropLines numbers (m.forward l.length).position.line rest := by
        rw [dropLines, if_pos ((tells.head lines before).2 failed), rest_eq]
      have later := tells.tail lines before
      obtain ⟨k, cause, failed⟩ := failed
      simp only [walk, gone, failed, comments_append, Outcome.events, Outcome.register] at before' later ⊢
      exact ih lines.tail before.forward later registry before'
    · have kept : dropLines numbers m.position.line (l :: rest) =
          l :: dropLines numbers (m.forward l.length).position.line rest := by
        rw [dropLines, if_neg (mt (tells.head lines before).1 failed), rest_eq]
      have later := tells.tail lines before
      rw [kept] at before' ⊢
      have at_ {m : Marker} {ls : List Bytes} (h : Before m (l :: ls)) : Before m [l] :=
        Before.of_append h
      have same := shape_outcomeAt tag tag' registry (at_ before) (at_ before')
      have fine : ¬ (outcomeAt tag' m' r' l).IsFailed := fun h => failed (h.of_shape same.symm)
      obtain ⟨none, contents, left⟩ := ih lines.tail before.forward later
        (Outcome.shape_register same registry) before'.forward
      refine ⟨?_, ?_, left⟩
      · simp only [walk, failures, List.filterMap_append] at none ⊢
        rw [none, List.append_nil]
        exact failures_events fine ..
      · simp only [walk, comments_append, List.map_append, contents]
        rw [Outcome.comments_shift same]

/-- A compilation that reports no failure is the same under any policy. -/
theorem compile_of_quiet (options : Options) (source : Bytes)
    (quiet : failures (compile { options with policy := .proceed } source).events = []) :
    compile options source = compile { options with policy := .proceed } source := by
  have truncated := compile_cut options source
  generalize compile { options with policy := .proceed } source = full at truncated quiet ⊢
  rw [truncated, cut_of_failures_nil quiet]

theorem compile_over_of_quiet {base : Registry} {filename source : Bytes} {tag : Nat}
    (policy : Policy)
    (quiet : failures (compile (.over base filename .proceed tag) source).events = []) :
    compile (.over base filename policy tag) source =
      compile (.over base filename .proceed tag) source :=
  compile_of_quiet (.over base filename policy tag) source quiet

/-- A line that fails does so whatever follows it. -/
theorem Outcome.IsFailed.elsewhere {front back back' : List Bytes} {r : Registry}
    (before : Before m (front ++ l :: back)) (before' : Before m' (front ++ l :: back'))
    (place : m'.position = m.position)
    (failed : (outcomeAt tag (pass m front) (walk tag m r front).2 l).IsFailed) :
    (outcomeAt tag (pass m' front) (walk tag m' r front).2 l).IsFailed := by
  have registry := (walk_again tag tag (Eq.refl r.shape) before.of_append before'.of_append place).2
  have at_ {m : Marker} {back : List Bytes} (h : Before m (front ++ l :: back)) :
      Before (pass m front) [l] := Before.of_append h.pass
  exact failed.of_shape (shape_outcomeAt tag tag registry (at_ before) (at_ before'))

/-- A line that fails leaves the rules as they were. -/
theorem shape_of_failed {base : Registry} {filename : Bytes} {tag : Nat} {front back : List Bytes}
    (lines : Lines (front ++ l :: back)) (before : Before m (front ++ l :: back))
    (place : m.position = .start filename)
    (failed : (outcomeAt tag (pass m front) (walk tag m base front).2 l).IsFailed) :
    ∃ rules rules', (compile (.over base filename .proceed tag) front.flatten).result = .ok rules ∧
      (compile (.over base filename .proceed tag) (front ++ [l]).flatten).result = .ok rules' ∧
      rules'.shape = rules.shape := by
  have front_eq := (lines.sublist (List.sublist_append_left ..)).cutLines_flatten
  have more : (front ++ [l]).Sublist (front ++ l :: back) :=
    (List.Sublist.refl front).append ((List.nil_sublist back).cons_cons l)
  have more_eq := (lines.sublist more).cutLines_flatten
  have before₀ := front_eq ▸ before_start filename front.flatten
  have before₁ := more_eq ▸ before_start filename (front ++ [l]).flatten
  have registry := (walk_again tag tag (Eq.refl base.shape) before₀ before₁.of_append rfl).2
  obtain ⟨k, cause, failed⟩ := failed.elsewhere before before₁ place.symm
  refine ⟨_, _, congrArg Step.result (compile_walk ..), congrArg Step.result (compile_walk ..), ?_⟩
  rw [front_eq, more_eq, walk_append]
  simp only [walk, failed, Outcome.register]
  exact registry

/-- Without the lines on which a compilation reports a failure a source compiles under every policy,
    and to the same: its rules and the contents of its comments are those of the whole source. In
    particular a line that fails leaves the rules as they were. -/
theorem compile_without (base : Registry) (filename source : Bytes) (policy : Policy)
    (tag tag' : Nat) :
    let full := compile (.over base filename .proceed tag) source
    let part := compile (.over base filename policy tag')
      (withoutLines (failedLines full.events) source)
    (∃ whole rules, full.result = .ok whole ∧ part.result = .ok rules ∧ rules.shape = whole.shape ∧
      (comments part.events).map Prod.snd = (comments full.events).map Prod.snd) ∧
    ∀ front l back, cutLines source = front ++ l :: back →
      (front.length + 1 : Int) ∈ failedLines full.events →
        ∃ rules rules', (compile (.over base filename .proceed tag) front.flatten).result = .ok rules ∧
          (compile (.over base filename .proceed tag) (front ++ [l]).flatten).result = .ok rules' ∧
          rules'.shape = rules.shape := by
  intro full part
  have lines := lines_cutLines source
  have before := before_start filename source
  have full_eq : full = ⟨_, .ok _⟩ := compile_walk base filename source tag
  obtain ⟨numbers, known⟩ : ∃ numbers, numbers = failedLines full.events := ⟨_, rfl⟩
  have walked : numbers = failedLines (walk tag (.start filename source) base (cutLines source)).1 := by
    rw [known, full_eq]
  have kept : cutLines (withoutLines numbers source) = dropLines numbers 1 (cutLines source) :=
    (lines.sublist (sublist_dropLines ..)).cutLines_flatten
  obtain ⟨none, contents, rules⟩ := walk_without tag' lines before
    (fun i _ => by rw [walked]) rfl (kept ▸ before_start filename (withoutLines numbers source))
  have proceeds := compile_walk base filename (withoutLines numbers source) tag'
  rw [kept] at proceeds
  have part_eq : part = compile (.over base filename policy tag') (withoutLines numbers source) := by
    rw [known]
  rw [compile_over_of_quiet policy (by rw [proceeds]; exact none), proceeds] at part_eq
  refine ⟨⟨_, _, ?_, ?_, rules, ?_⟩, fun front l back eq failed => ?_⟩
  · rw [full_eq]
  · rw [part_eq]
    rfl
  · rw [part_eq, full_eq]
    exact contents
  · rw [← known, walked, mem_failedLines_walk lines before] at failed
    obtain ⟨front', l', back', eq', number, failed⟩ := failed
    have length : front.length = front'.length := by
      change (front.length + 1 : Int) = 1 + front'.length at number
      omega
    obtain ⟨rfl, rest⟩ := List.append_inj (eq.symm.trans eq') length
    cases rest
    exact shape_of_failed (eq ▸ lines) (eq ▸ before) rfl failed

end Definition

end Rulebook

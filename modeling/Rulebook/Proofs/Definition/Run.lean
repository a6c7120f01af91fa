import Rulebook.Proofs.Definition.LineTrees
import Rulebook.Proofs.Definition.Policy

/-!
# Compiling line by line

With the grammar of definitions a compilation reads one line after another: what a gap between two
matches reports is what its lines report one by one, and a match is one line. So a compilation is
`Definition.readLines`, which looks at no line before it has come to it: `Definition.compileWith_eq`.
-/

namespace Rulebook

open Bytes

theorem Marker.forward_add (m : Marker) {l : Bytes} {rest : List Bytes} (lines : Lines (l :: rest))
    {more : Bytes} (text : m.rest = l ++ (rest.flatten ++ more)) :
    (m.forward l.length).forward rest.flatten.length =
      m.forward (l.length + rest.flatten.length) := by
  have position : (m.position.advance l).advance rest.flatten =
      m.position.advance (l ++ rest.flatten) := by
    cases lines with
    | last => simp
    | cons => exact Position.advance_line ..
  simp only [forward, text, List.take_left, List.drop_left, position, Marker.mk.injEq]
  rw [← List.append_assoc, ← List.length_append, List.take_left, List.drop_left]
  exact ⟨rfl, rfl⟩

namespace Definition

open Bootstrap

/-! ### Steps one after another -/

theorem Step.andThen_assoc {α : Type} (x : Step State) (f : State → Step State)
    (g : State → Step α) : (x.andThen f).andThen g = x.andThen fun s => (f s).andThen g := by
  obtain ⟨events, result⟩ := x
  cases result <;> rfl

/-- The state past a line. -/
def State.pass (s : State) (l : Bytes) : State := { s with marker := s.marker.forward l.length }

theorem failAll_append (policy : Policy) (us vs : List Unmatched) (s : State) :
    State.failAll policy (us ++ vs) s =
      (State.failAll policy us s).andThen (State.failAll policy vs) := by
  induction us generalizing s with
  | nil => rfl
  | cons u us ih =>
    rw [List.cons_append, failAll_eq, failAll_eq policy (u :: us)]
    simp only [Step.andThen_assoc]
    congr 1
    funext s'
    exact ih s'

/-- True of a step that, if it leads to a state, leads to one with the events of the step and with the
    marker where it was. -/
structure Step.Stays (step : Step State) (m : Marker) : Prop where
  kept : ∀ {events s'}, step = ⟨events, .ok s'⟩ → events = s'.events ∧ s'.marker = m

theorem Step.Stays.andThen {step : Step State} {m : Marker} (h : step.Stays m)
    {next : State → Step State} (later : ∀ s', s'.marker = m → (next s').Stays m) :
    (step.andThen next).Stays m := by
  obtain ⟨all, result⟩ := step
  refine ⟨fun eq => ?_⟩
  cases result with
  | error halt => cases eq
  | ok s => exact (later s (h.kept rfl).2).kept eq

theorem stays_error (events : List Event) (h : Halt) (m : Marker) :
    Step.Stays ⟨events, .error h⟩ m := ⟨nofun⟩

theorem stays_ok (s : State) : Step.Stays ⟨s.events, .ok s⟩ s.marker := by
  refine ⟨fun eq => ?_⟩
  cases eq
  exact ⟨rfl, rfl⟩

theorem stays_fail (s : State) (policy : Policy) (d : Error.Diagnosis) :
    (s.fail policy d).Stays s.marker := by
  unfold State.fail
  dsimp only
  split
  · exact stays_error ..
  · exact stays_ok ({ s.report (.failure d) with failures := s.failures + 1 } : State)

theorem stays_failAll (policy : Policy) (us : List Unmatched) (s : State) :
    (State.failAll policy us s).Stays s.marker := by
  induction us generalizing s with
  | nil => exact stays_ok s
  | cons u us ih =>
    rw [failAll_eq]
    exact (stays_fail ..).andThen fun s' same => same ▸ ih s'

theorem stays_readDefinition (settings : Settings) (s : State) (node name value : Tree) :
    (readDefinition settings s node name value).Stays s.marker := by
  unfold readDefinition
  split
  · rename_i rule registry _
    dsimp only
    split
    · exact stays_error ..
    · rename_i position _
      have kept : (if (s.registry.get? name.text).isSome then s.report (.redefining name.text)
          else s).marker = s.marker := by
        split <;> rfl
      exact kept ▸ stays_ok (State.report { (if (s.registry.get? name.text).isSome then
        s.report (.redefining name.text) else s) with registry := registry } _)
  · split
    · exact stays_error ..
    · exact stays_fail ..
  · exact stays_error ..

theorem stays_readLine (settings : Settings) (s : State) (node : Tree) :
    (readLine settings s node).Stays s.marker := by
  unfold readLine
  split
  · split
    · exact stays_error ..
    · exact stays_ok (s.report _)
  · split
    · exact stays_ok s
    · split
      · exact stays_readDefinition ..
      · split
        · exact stays_error ..
        · exact stays_fail ..

/-- Failures do not depend on the marker. -/
theorem failAll_marker (policy : Policy) (us : List Unmatched) (s : State) (m : Marker) :
    State.failAll policy us { s with marker := m } =
      (State.failAll policy us s).andThen fun s' => ⟨s'.events, .ok { s' with marker := m }⟩ := by
  induction us generalizing s with
  | nil => rfl
  | cons u us ih =>
    rw [failAll_eq, failAll_eq policy (u :: us)]
    simp only [Step.andThen_assoc, State.fail, State.report]
    split
    · rfl
    · exact ih { s with failures := s.failures + 1, events := _ :: s.events }

/-! ### Lines -/

/-- Compiles the line that the marker stands at. -/
def readAt (settings : Settings) (l : Bytes) (s : State) : Step State :=
  match lineTaker? l with
  | none => State.failAll settings.policy (Marker.unmatched? s.marker.position l).toList s
  | some e =>
      match lineTree e s.marker.position.offset.toNat l with
      | .error err => ⟨s.events, .error (.error (.within "grammar" err))⟩
      | .ok node => readLine settings s node

/-- Compiles lines one after another. -/
def readLines (settings : Settings) : List Bytes → State → Step State
  | [], s => ⟨s.events, .ok s⟩
  | l :: rest, s => (readAt settings l s).andThen fun s' => readLines settings rest (s'.pass l)

theorem readLines_append (settings : Settings) (ls ls' : List Bytes) (s : State) :
    readLines settings (ls ++ ls') s =
      (readLines settings ls s).andThen (readLines settings ls') := by
  induction ls generalizing s with
  | nil => rfl
  | cons l rest ih =>
    simp only [List.cons_append, readLines, Step.andThen_assoc, ih]

theorem unmatchedLines_cons (p : Position) (l : Bytes) (rest : List Bytes) :
    Marker.unmatchedLines p (l :: rest) =
      (Marker.unmatched? p l).toList ++ Marker.unmatchedLines (p.advance l) rest := by
  rw [Marker.unmatchedLines]
  cases Marker.unmatched? p l <;> rfl

/-- A gap reports what its lines report one by one. -/
theorem failAll_gap (settings : Settings) {gap : List Bytes} (lines : Lines gap)
    (others : ∀ l ∈ gap, lineTaker? l = none) {more : Bytes} (s : State)
    (text : s.marker.rest = gap.flatten ++ more) :
    State.failAll settings.policy (Marker.unmatchedLines s.marker.position gap)
        { s with marker := s.marker.forward gap.flatten.length } =
      readLines settings gap s := by
  induction gap generalizing s with
  | nil =>
    have still : s.marker.forward 0 = s.marker := by simp [Marker.forward]
    simp [Marker.unmatchedLines, State.failAll, readLines, still]
  | cons l rest ih =>
    obtain ⟨other, others⟩ := List.forall_mem_cons.1 others
    have text : s.marker.rest = l ++ (rest.flatten ++ more) := by simpa using text
    have far : s.marker.forward (l :: rest).flatten.length =
        (s.marker.forward l.length).forward rest.flatten.length := by
      rw [Marker.forward_add _ lines text, List.flatten_cons, List.length_append]
    rw [unmatchedLines_cons, failAll_append, failAll_marker, Step.andThen_assoc, readLines, readAt,
      other, far]
    have stays := stays_failAll settings.policy (Marker.unmatched? s.marker.position l).toList s
    cases here : State.failAll settings.policy (Marker.unmatched? s.marker.position l).toList s with
    | mk events result =>
      cases result with
      | error halt => rfl
      | ok s' =>
        obtain ⟨-, same⟩ := stays.kept here
        have next : (s'.pass l).marker = s.marker.forward l.length := by rw [State.pass, same]
        have moved : (s'.pass l).marker.position = s.marker.position.advance l := by
          rw [next, Marker.forward, text, List.take_left]
        have later := ih lines.tail others (s'.pass l) (by
          rw [next, Marker.forward, text, List.drop_left])
        rw [moved, next] at later
        exact later

theorem Step.andThen_congr {α : Type} {step : Step State} {m : Marker} (stays : step.Stays m)
    {f g : State → Step α} (same : ∀ s, s.marker = m → f s = g s) :
    step.andThen f = step.andThen g := by
  obtain ⟨events, result⟩ := step
  cases result with
  | error halt => rfl
  | ok s => exact same s (stays.kept rfl).2

/-- A marker over some lines can be moved past the first of them. -/
theorem skip_gap (settings : Settings) {gap : List Bytes} (lines : Lines gap)
    (others : ∀ l ∈ gap, lineTaker? l = none) {more : Bytes} (s : State)
    (text : s.marker.rest = gap.flatten ++ more) :
    s.skip settings.policy (s.marker.position.offset + gap.flatten.length) =
      readLines settings gap s := by
  have fits : gap.flatten.length ≤ s.marker.rest.length := by
    rw [text, List.length_append]
    omega
  simp only [State.skip, Marker.skip, Marker.distance_add fits]
  rw [text, List.take_left, lines.cutLines_flatten]
  exact failAll_gap settings lines others s text

theorem lineTree_ok {l : Bytes} {e : Entry Rule} (entry : lineTaker? l = some e) (offset : Nat) :
    ∃ t, e.rule.matcher.descend l offset = .ok t ∧
      lineTree e offset l = .ok (.node [] l offset [t.rename e.name]) := by
  have mem := List.mem_of_find?_eq_some entry
  obtain ⟨t, built⟩ := (ready_line.entry (Rule.mem_reach mem) (isNamed_line e mem)).descend l offset
  exact ⟨t, built, by rw [lineTree, built]; rfl⟩

/-- After a node for a line that stands at the marker, the marker is past the line. -/
theorem passLine_line {s : State} {l more : Bytes} {offset : Nat} {parts : List Tree}
    (position : s.marker.position.offset = offset) (text : s.marker.rest = l ++ more) :
    passLine (.node [] l offset parts) s = ⟨(s.pass l).events, .ok (s.pass l)⟩ := by
  have fits : l.length ≤ s.marker.rest.length := by
    rw [text, List.length_append]
    omega
  have sought := Marker.seek_add fits
  rw [position] at sought
  simp only [passLine, Tree.finish, Tree.offset, Tree.text, sought]
  rfl

/-- The lines after a gap, by induction on their number. -/
theorem readNodes_eq (policy : Policy) (tag : Nat) (ls gap : List Bytes) (lines : Lines (gap ++ ls))
    (others : ∀ l ∈ gap, lineTaker? l = none) (s : State) (start : Nat)
    (offset : s.marker.position.offset = start) (text : s.marker.rest = (gap ++ ls).flatten) :
    readNodes ⟨.bootstrap, policy, tag⟩ (start + (gap ++ ls).flatten.length)
        ((placed (start + gap.flatten.length) ls).filterMap fun p =>
          (lineTaker? p.2).map (lineTree · p.1 p.2)) s =
      (readLines ⟨.bootstrap, policy, tag⟩ (gap ++ ls) s).andThen fun s' =>
        ⟨s'.events, .ok s'.registry⟩ := by
  induction ls generalizing gap s start with
  | nil =>
    rw [List.append_nil] at lines text ⊢
    rw [placed, List.filterMap_nil, readNodes_nil]
    have skipped := skip_gap ⟨.bootstrap, policy, tag⟩ lines others s
      (show s.marker.rest = gap.flatten ++ [] by simpa using text)
    rw [← skipped, offset]
    rfl
  | cons l rest ih =>
    cases entry : lineTaker? l with
    | none =>
      have none : ∀ l' ∈ gap ++ [l], lineTaker? l' = none := fun l' mem =>
        (List.mem_append.1 mem).elim (others l') fun here => List.mem_singleton.1 here ▸ entry
      have later := ih (gap ++ [l]) (by simpa using lines) none s start offset (by simpa using text)
      simp only [List.append_assoc, List.singleton_append, List.flatten_append, List.flatten_singleton,
        List.length_append] at later
      rw [placed, List.filterMap_cons_none (by simp [entry])]
      simp only [List.flatten_append, List.length_append, Nat.add_assoc] at later ⊢
      exact later
    | some e =>
      obtain ⟨t, -, built⟩ := lineTree_ok entry (start + gap.flatten.length)
      have front : Lines gap := lines.sublist (List.sublist_append_left ..)
      have back : Lines (l :: rest) := lines.sublist (List.sublist_append_right ..)
      have text' : s.marker.rest = gap.flatten ++ (l :: rest).flatten := by simpa using text
      have skipped := skip_gap ⟨.bootstrap, policy, tag⟩ front others s text'
      have stays := stays_failAll policy (Marker.unmatchedLines s.marker.position gap)
        { s with marker := s.marker.forward gap.flatten.length }
      rw [failAll_gap ⟨.bootstrap, policy, tag⟩ front others s text'] at stays
      rw [placed, List.filterMap_cons_some (by rw [entry, Option.map_some, built]), readNodes_cons,
        readNode_eq, readLines_append, Step.andThen_assoc, Step.andThen_assoc]
      have here : (Tree.node [] l (start + gap.flatten.length : Nat) [t.rename e.name]).offset =
          s.marker.position.offset + gap.flatten.length := by
        rw [offset]
        exact Int.natCast_add ..
      rw [here, skipped]
      refine Step.andThen_congr stays fun s' same => ?_
      have at_line : s'.marker.rest = l ++ rest.flatten := by
        rw [same, Marker.forward, text', List.drop_left, List.flatten_cons]
      have position : s'.marker.position.offset = (start + gap.flatten.length : Nat) := by
        rw [same, Marker.forward]
        simp only [Position.advance, offset, text', List.take_left]
        omega
      rw [readLines, readAt, entry]
      simp only [position, Int.toNat_natCast, built, Step.andThen_assoc]
      refine Step.andThen_congr (stays_readLine ..) fun s'' same' => ?_
      rw [passLine_line (same' ▸ position) (same' ▸ at_line)]
      have moved : (s''.pass l).marker = s'.marker.forward l.length := by rw [State.pass, same']
      have later := ih [] back.tail (List.forall_mem_nil _) (s''.pass l)
        (start + gap.flatten.length + l.length)
        (by
          rw [moved, Marker.forward]
          simp only [Position.advance, position, at_line, List.take_left]
          omega)
        (by rw [moved, Marker.forward, at_line, List.drop_left]; rfl)
      have total : start + (gap ++ l :: rest).flatten.length =
          start + gap.flatten.length + l.length + ([] ++ rest).flatten.length := by
        simp only [List.flatten_append, List.flatten_cons, List.length_append, List.nil_append]
        omega
      rw [total]
      exact later

/-- A step over lines that leads to a state leads to one with the events of the step. -/
theorem events_readLines (settings : Settings) (ls : List Bytes) (s : State) {events : List Event}
    {s' : State} (h : readLines settings ls s = ⟨events, .ok s'⟩) : events = s'.events := by
  induction ls generalizing s with
  | nil =>
    cases h
    rfl
  | cons l rest ih =>
    rw [readLines] at h
    cases step : readAt settings l s with
    | mk before result =>
      rw [step] at h
      cases result with
      | error halt => cases h
      | ok s'' => exact ih _ h

/-- A compilation with the grammar of definitions reads the lines of its source one by one. -/
theorem compileWith_eq (policy : Policy) (tag : Nat) (filename : Bytes) (base : Registry)
    (source : Bytes) :
    compileWith ⟨.bootstrap, policy, tag⟩ filename base source =
      let step := readLines ⟨.bootstrap, policy, tag⟩ (cutLines source)
        ⟨base, .start filename source, 0, []⟩
      ⟨step.events.reverse, step.result.map State.registry⟩ := by
  have read := readNodes_eq policy tag (cutLines source) [] (lines_cutLines source) nofun
    ⟨base, .start filename source, 0, []⟩ 0 rfl (flatten_cutLines source).symm
  rw [List.nil_append, flatten_cutLines, List.flatten_nil, List.length_nil, Nat.add_zero,
    Nat.zero_add] at read
  have trees : (Grammar.bootstrap.line.trees source) = _ := trees_line source
  simp only [compileWith, trees]
  rw [read]
  cases step : readLines ⟨.bootstrap, policy, tag⟩ (cutLines source)
    ⟨base, .start filename source, 0, []⟩ with
  | mk events result =>
    cases result with
    | error halt => rfl
    | ok s =>
      rw [events_readLines _ _ _ step]
      rfl

end Definition

end Rulebook

import Rulebook.Definition.Compile

/-!
# Policies

A policy says after which failure a compilation ends, and has no other say in it. Up to that failure
a compilation reports what one that goes on after every failure reports, and if the policy ends it
nowhere the two are the same: `Definition.compile_truncates`.
-/

namespace Rulebook

namespace Definition

/-! ### Events -/

/-- The failure that an event reports. -/
def Event.failure? : Event → Option Error.Diagnosis
  | failure d => some d
  | _ => none

/-- The comment that an event reports. -/
def Event.comment? : Event → Option (Position × Bytes)
  | comment position content => some (position, content)
  | _ => none

/-- The failures among some events, in order. -/
def failures (events : List Event) : List Error.Diagnosis := events.filterMap Event.failure?

/-- The comments among some events, in order. -/
def comments (events : List Event) : List (Position × Bytes) := events.filterMap Event.comment?

/-- The events up to the first failure after which a policy ends the compilation, and the error that
    it ends with, if there were `count` failures before. -/
def cut (policy : Policy) (count : Nat) : List Event → Option (List Event × Error)
  | [] => none
  | event :: rest =>
      match event.failure? with
      | none => (cut policy count rest).map (Prod.map (event :: ·) id)
      | some d =>
          match policy (count + 1) d with
          | some e => some ([event], e)
          | none => (cut policy (count + 1) rest).map (Prod.map (event :: ·) id)

variable {policy : Policy}

/-- Events that a policy lets pass come before whatever follows them. -/
theorem cut_append (new more : List Event) (count : Nat) :
    cut policy count (new ++ more) =
      match cut policy count new with
      | some stopped => some stopped
      | none => (cut policy (count + (failures new).length) more).map (Prod.map (new ++ ·) id) := by
  induction new generalizing count with
  | nil =>
    simp only [List.nil_append, cut, failures, List.filterMap_nil, List.length_nil, Nat.add_zero]
    cases cut policy count more <;> rfl
  | cons event new ih =>
    cases kind : event.failure? with
    | none =>
      have same : failures (event :: new) = failures new := by simp [failures, kind]
      simp only [List.cons_append, cut, kind, ih, same]
      cases cut policy count new with
      | some stopped => rfl
      | none => cases cut policy (count + (failures new).length) more <;> rfl
    | some d =>
      have next : failures (event :: new) = d :: failures new := by simp [failures, kind]
      simp only [List.cons_append, cut, kind, ih, next, List.length_cons,
        show count + ((failures new).length + 1) = count + 1 + (failures new).length by omega]
      cases policy (count + 1) d with
      | some e => rfl
      | none =>
        cases cut policy (count + 1) new with
        | some stopped => rfl
        | none => cases cut policy (count + 1 + (failures new).length) more <;> rfl

theorem cut_of_failures_nil {new : List Event} (others : failures new = []) (count : Nat) :
    cut policy count new = none := by
  induction new with
  | nil => rfl
  | cons event new ih =>
    simp only [failures, List.filterMap_eq_nil_iff, List.forall_mem_cons] at others ih
    simp [cut, others.1, ih others.2]

/-! ### Steps -/

/-- Goes on after a step, unless it has halted. -/
def Step.andThen {α : Type} (step : Step State) (next : State → Step α) : Step α :=
  match step with
  | ⟨events, .error h⟩ => ⟨events, .error h⟩
  | ⟨_, .ok s⟩ => next s

/-- What a policy leaves of a step that has reported the events `new`. -/
def Step.under {α : Type} (full : Step α) (policy : Policy) (s : State) (new : List Event) :
    Step α :=
  match cut policy s.failures new with
  | none => full
  | some (events, e) => ⟨events.reverse ++ s.events, .error (.error e)⟩

/-- True of a state to which a step that has reported the events `new` may lead. -/
structure Continues (s : State) (new : List Event) (s' : State) : Prop where
  events : s'.events = new.reverse ++ s.events
  failures : s'.failures = s.failures + (failures new).length

/-- Tells of a step with and without a policy that the policy has only cut it short. Whatever the
    step leads to is in the given relation to what it has reported. -/
def Truncates {α : Type} (K : State → List Event → α → Prop) (policy : Policy) (s : State)
    (full part : Step α) : Prop :=
  ∃ new, full.events = new.reverse ++ s.events ∧ part = full.under policy s new ∧
    ∀ a, full.result = .ok a → K s new a

/-- A step that reports nothing. -/
theorem truncates_silent {α : Type} {K : State → List Event → α → Prop} {s : State}
    {result : Except Halt α} (kept : ∀ a, result = .ok a → K s [] a) :
    Truncates K policy s ⟨s.events, result⟩ ⟨s.events, result⟩ :=
  ⟨[], rfl, rfl, kept⟩

theorem truncates_error {α : Type} {K : State → List Event → α → Prop} (s : State) (h : Halt) :
    Truncates K policy s ⟨s.events, .error h⟩ ⟨s.events, .error h⟩ :=
  truncates_silent nofun

/-- A step that reports nothing but what is no failure. -/
theorem truncates_reports {α : Type} {K : State → List Event → α → Prop} {s : State}
    (new : List Event) (others : failures new = []) {full : Step α}
    (events : full.events = new.reverse ++ s.events)
    (kept : ∀ a, full.result = .ok a → K s new a) : Truncates K policy s full full := by
  refine ⟨new, events, ?_, kept⟩
  rw [Step.under, cut_of_failures_nil others]

theorem Continues.trans {s s' s'' : State} {new more : List Event} (h : Continues s new s')
    (h' : Continues s' more s'') : Continues s (new ++ more) s'' where
  events := by rw [h'.events, h.events, List.reverse_append, List.append_assoc]
  failures := by
    rw [h'.failures, h.failures, Definition.failures, Definition.failures, Definition.failures,
      List.filterMap_append, List.length_append, Nat.add_assoc]

/-- What comes after a step is cut short if the step is, and else by itself. -/
theorem Truncates.andThen {α : Type} {K : State → List Event → α → Prop}
    (along : ∀ {s s' new more a}, Continues s new s' → K s' more a → K s (new ++ more) a)
    {s : State} {full part : Step State} {next next' : State → Step α}
    (h : Truncates Continues policy s full part)
    (later : ∀ s', full.result = .ok s' → Truncates K policy s' (next s') (next' s')) :
    Truncates K policy s (full.andThen next) (part.andThen next') := by
  obtain ⟨new, events, rfl, known⟩ := h
  obtain ⟨all, result⟩ := full
  cases result with
  | error halt =>
    refine ⟨new, events, ?_, nofun⟩
    simp only [Step.under]
    split <;> rfl
  | ok s' =>
    have here := known s' rfl
    obtain ⟨more, after, rest, kept⟩ := later s' rfl
    refine ⟨new ++ more, ?_, ?_, fun a ok => along here (kept a ok)⟩
    · rw [List.reverse_append, List.append_assoc, ← here.events]
      exact after
    · simp only [Step.under, cut_append]
      cases cut policy s.failures new with
      | some stopped => rfl
      | none =>
        simp only [Step.andThen, rest, Step.under, here.failures]
        cases cut policy (s.failures + (failures new).length) more with
        | none => rfl
        | some stopped => simp [here.events]

/-! ### Lines -/

/-- A failure ends the compilation if the policy says so. -/
theorem truncates_fail (s : State) (d : Error.Diagnosis) :
    Truncates Continues policy s (s.fail .proceed d) (s.fail policy d) := by
  refine ⟨[.failure d], rfl, ?_, ?_⟩
  · simp only [State.fail, Policy.proceed, State.report, Step.under, cut, Event.failure?]
    cases policy (s.failures + 1) d <;> rfl
  · intro s' ok
    cases ok
    exact ⟨rfl, rfl⟩

theorem failAll_eq (policy : Policy) (unmatched : List Unmatched) (s : State) :
    State.failAll policy unmatched s =
      match unmatched with
      | [] => ⟨s.events, .ok s⟩
      | u :: rest => (s.fail policy ⟨u.position, u.text, none⟩).andThen (State.failAll policy rest) := by
  cases unmatched with
  | nil => rfl
  | cons u rest =>
    simp only [State.failAll, Step.andThen]
    split <;> simp_all

/-- The lines of a gap, by induction on their number. -/
theorem truncates_failAll (policy : Policy) (unmatched : List Unmatched) (s : State) :
    Truncates Continues policy s (State.failAll .proceed unmatched s)
      (State.failAll policy unmatched s) := by
  induction unmatched generalizing s with
  | nil => exact truncates_silent fun s' ok => by cases ok; exact ⟨rfl, rfl⟩
  | cons u rest ih =>
    rw [failAll_eq .proceed, failAll_eq policy]
    exact (truncates_fail s _).andThen Continues.trans fun s' _ => ih s'

theorem truncates_skip (s : State) (offset : Int) :
    Truncates Continues policy s (s.skip .proceed offset) (s.skip policy offset) := by
  unfold State.skip
  cases s.marker.skip offset with
  | error fault => exact truncates_error s _
  | ok crossed =>
    obtain ⟨new, events, rest, kept⟩ :=
      truncates_failAll policy crossed.1 { s with marker := crossed.2 }
    exact ⟨new, events, rest, fun s' ok => ⟨(kept s' ok).events, (kept s' ok).failures⟩⟩

theorem truncates_readDefinition (grammar : Grammar) (tag : Nat) (s : State)
    (node name value : Tree) :
    Truncates Continues policy s (readDefinition ⟨grammar, .proceed, tag⟩ s node name value)
      (readDefinition ⟨grammar, policy, tag⟩ s node name value) := by
  have same : define ⟨grammar, .proceed, tag⟩ s node name value =
      define ⟨grammar, policy, tag⟩ s node name value := rfl
  simp only [readDefinition, same]
  cases define ⟨grammar, policy, tag⟩ s node name value with
  | error halt =>
    cases halt with
    | error e =>
      dsimp only
      cases diagnose s node name e with
      | error fault => exact truncates_error s _
      | ok d => exact truncates_fail s d
    | range fault => exact truncates_error s _
    | endless => exact truncates_error s _
  | ok defined =>
    obtain ⟨rule, registry⟩ := defined
    cases s.marker.locate name.offset with
    | error fault =>
      by_cases known : (s.registry.get? name.text).isSome
      · simp only [known, if_true]
        exact truncates_reports [.redefining name.text] rfl rfl nofun
      · simp only [known]
        exact truncates_error s _
    | ok position =>
      by_cases known : (s.registry.get? name.text).isSome
      · simp only [known, if_true]
        refine truncates_reports
          [.redefining name.text, .defined name.text position.line rule.namedPattern]
          rfl rfl fun s' ok => ?_
        cases ok
        exact ⟨rfl, rfl⟩
      · simp only [known]
        refine truncates_reports [.defined name.text position.line rule.namedPattern]
          rfl rfl fun s' ok => ?_
        cases ok
        exact ⟨rfl, rfl⟩

theorem truncates_readLine (grammar : Grammar) (tag : Nat) (s : State) (node : Tree) :
    Truncates Continues policy s (readLine ⟨grammar, .proceed, tag⟩ s node)
      (readLine ⟨grammar, policy, tag⟩ s node) := by
  unfold readLine
  cases node.child? "comment" with
  | some comment =>
    dsimp only
    cases s.marker.locate comment.offset with
    | error fault => exact truncates_error s _
    | ok position =>
      refine truncates_reports [.comment position _] rfl rfl fun s' ok => ?_
      cases ok
      exact ⟨rfl, rfl⟩
  | none =>
    dsimp only
    cases node.child? "ruleEntry" with
    | none => exact truncates_silent fun s' ok => by cases ok; exact ⟨rfl, rfl⟩
    | some definition =>
      dsimp only
      cases definition.child? "name" with
      | none =>
        dsimp only
        cases s.marker.locate definition.offset with
        | error fault => exact truncates_error s _
        | ok position => exact truncates_fail s _
      | some name =>
        cases definition.child? "value" with
        | none =>
          dsimp only
          cases s.marker.locate definition.offset with
          | error fault => exact truncates_error s _
          | ok position => exact truncates_fail s _
        | some value => exact truncates_readDefinition grammar tag s definition name value

/-- A step that leads to a state has reported what the state holds. -/
theorem Truncates.events_eq {s : State} {full part : Step State}
    (h : Truncates Continues policy s full part) {events : List Event} {s' : State}
    (ok : part = ⟨events, .ok s'⟩) : events = s'.events := by
  obtain ⟨new, same, rfl, kept⟩ := h
  unfold Step.under at ok
  split at ok
  · subst ok
    rw [(kept s' rfl).events]
    exact same
  · cases ok

/-- Moves past a line that has been compiled. -/
def passLine (node : Tree) (s : State) : Step State :=
  match s.marker.seek node.finish with
  | .error fault => ⟨s.events, .error (.range fault)⟩
  | .ok marker => ⟨s.events, .ok { s with marker := marker }⟩

theorem truncates_passLine (s : State) (node : Tree) :
    Truncates Continues policy s (passLine node s) (passLine node s) := by
  unfold passLine
  cases s.marker.seek node.finish with
  | error fault => exact truncates_error s _
  | ok marker => exact truncates_silent fun s' ok => by cases ok; exact ⟨rfl, rfl⟩

theorem readNode_eq (grammar : Grammar) (policy : Policy) (tag : Nat) (s : State) (node : Tree) :
    readNode ⟨grammar, policy, tag⟩ s node =
      (s.skip policy node.offset).andThen fun s' =>
        (readLine ⟨grammar, policy, tag⟩ s' node).andThen (passLine node) := by
  unfold readNode Step.andThen
  cases s.skip policy node.offset with
  | mk events result =>
    cases result with
    | error halt => rfl
    | ok s' =>
      dsimp only
      cases read : readLine ⟨grammar, policy, tag⟩ s' node with
      | mk events result =>
        cases result with
        | error halt => rfl
        | ok s'' =>
          rw [(truncates_readLine grammar tag s' node).events_eq read]
          rfl

/-- A line, with the gap before it. -/
theorem truncates_readNode (grammar : Grammar) (tag : Nat) (s : State) (node : Tree) :
    Truncates Continues policy s (readNode ⟨grammar, .proceed, tag⟩ s node)
      (readNode ⟨grammar, policy, tag⟩ s node) := by
  rw [readNode_eq, readNode_eq]
  refine (truncates_skip s node.offset).andThen Continues.trans fun s' _ => ?_
  refine (truncates_readLine grammar tag s' node).andThen Continues.trans fun s'' _ => ?_
  exact truncates_passLine s'' node

theorem readNodes_nil (grammar : Grammar) (policy : Policy) (tag length : Nat) (s : State) :
    readNodes ⟨grammar, policy, tag⟩ length [] s =
      (s.skip policy length).andThen fun s' => ⟨s'.events, .ok s'.registry⟩ := by
  unfold readNodes Step.andThen
  cases skipped : s.skip policy length with
  | mk events result =>
    cases result with
    | error halt => rfl
    | ok s' => rw [(truncates_skip s length).events_eq skipped]

theorem readNodes_cons (grammar : Grammar) (policy : Policy) (tag length : Nat) (node : Tree)
    (rest : List (Except Error Tree)) (s : State) :
    readNodes ⟨grammar, policy, tag⟩ length (.ok node :: rest) s =
      (readNode ⟨grammar, policy, tag⟩ s node).andThen
        (readNodes ⟨grammar, policy, tag⟩ length rest) := by
  rw [readNodes]
  unfold Step.andThen
  cases readNode ⟨grammar, policy, tag⟩ s node with
  | mk events result => cases result <;> rfl

/-- All lines, by induction on their number. -/
theorem truncates_readNodes (policy : Policy) (grammar : Grammar) (tag length : Nat)
    (nodes : List (Except Error Tree)) (s : State) :
    Truncates (fun _ _ _ => True) policy s (readNodes ⟨grammar, .proceed, tag⟩ length nodes s)
      (readNodes ⟨grammar, policy, tag⟩ length nodes s) := by
  induction nodes generalizing s with
  | nil =>
    rw [readNodes_nil, readNodes_nil]
    refine (truncates_skip s length).andThen (fun _ _ => trivial) fun s' _ => ?_
    exact truncates_silent fun _ _ => trivial
  | cons result rest ih =>
    cases result with
    | error e => exact truncates_error s _
    | ok node =>
      rw [readNodes_cons, readNodes_cons]
      exact (truncates_readNode grammar tag s node).andThen (fun _ _ => trivial) fun s' _ => ih s'

/-! ### Compilations -/

/-- A policy ends a compilation where it says so, and else has no part in it. -/
theorem compile_cut (options : Options) (source : Bytes) :
    compile options source =
      match cut options.policy 0 (compile { options with policy := .proceed } source).events with
      | none => compile { options with policy := .proceed } source
      | some (events, e) => ⟨events, .error (.error e)⟩ := by
  obtain ⟨filename, policy, base, grammar, tag⟩ := options
  have read : ∀ (grammar : Grammar) (base : Registry),
      compileWith ⟨grammar, policy, tag⟩ filename base source =
        match cut policy 0 (compileWith ⟨grammar, .proceed, tag⟩ filename base source).events with
        | none => compileWith ⟨grammar, .proceed, tag⟩ filename base source
        | some (events, e) => ⟨events, .error (.error e)⟩ := by
    intro grammar base
    obtain ⟨new, events, part, -⟩ := truncates_readNodes policy grammar tag
      source.length (grammar.line.trees source) ⟨base, .start filename source, 0, []⟩
    simp only [compileWith, part, events, List.append_nil, List.reverse_reverse, Step.under]
    cases cut policy 0 new with
    | none => simp [events]
    | some stopped => simp
  unfold compile
  match base with
  | some none => rfl
  | some (some registry) =>
    dsimp only
    cases grammar.elim (.ok .bootstrap) Grammar.ofRegistry with
    | error e => rfl
    | ok grammar => exact read grammar _
  | none =>
    dsimp only
    cases grammar.elim (.ok .bootstrap) Grammar.ofRegistry with
    | error e => rfl
    | ok grammar => exact read grammar _

/-- The policy that answers the failure with a number, counted from one, with an error. -/
def Policy.answerAt (number : Nat) (answer : Error.Diagnosis → Error) : Policy :=
  fun n d => if n = number then some (answer d) else none

/-- Where a policy that answers one failure ends a compilation. -/
theorem cut_answerAt (answer : Error.Diagnosis → Error) (count number : Nat)
    (events : List Event) :
    match (failures events)[number]? with
    | none => cut (.answerAt (count + number + 1) answer) count events = none
    | some d => ∃ front, cut (.answerAt (count + number + 1) answer) count events =
        some (front, answer d) ∧ front <+: events ∧
          failures front = (failures events).take (number + 1) := by
  induction events generalizing count number with
  | nil => rfl
  | cons event rest ih =>
    cases kind : event.failure? with
    | none =>
      have same : ∀ events, failures (event :: events) = failures events := by
        simp [failures, kind]
      have later := ih count number
      simp only [same, cut, kind]
      cases found : (failures rest)[number]? with
      | none => simp_all
      | some d =>
        rw [found] at later
        obtain ⟨front, stopped, isPrefix, taken⟩ := later
        exact ⟨event :: front, by rw [stopped]; rfl, List.cons_prefix_cons.2 ⟨rfl, isPrefix⟩,
          by rw [same, taken]⟩
    | some d =>
      have next : ∀ events, failures (event :: events) = d :: failures events := by
        simp [failures, kind]
      simp only [next, cut, kind]
      cases number with
      | zero =>
        refine ⟨[event], by simp [Policy.answerAt], ⟨rest, rfl⟩, ?_⟩
        rw [next, List.take_succ_cons, List.take_zero]
        rfl
      | succ number =>
        have passed : Policy.answerAt (count + (number + 1) + 1) answer (count + 1) d = none := by
          simp [Policy.answerAt]
        have later := ih (count + 1) number
        rw [show count + 1 + number + 1 = count + (number + 1) + 1 by omega] at later
        simp only [passed, List.getElem?_cons_succ]
        cases found : (failures rest)[number]? with
        | none => simp_all
        | some d' =>
          rw [found] at later
          obtain ⟨front, stopped, isPrefix, taken⟩ := later
          exact ⟨event :: front, by rw [stopped]; rfl, List.cons_prefix_cons.2 ⟨rfl, isPrefix⟩,
            by rw [next, taken, List.take_succ_cons]⟩

/-- The policy that ends a compilation with a given error answers with that error. -/
theorem Policy.stopAt_eq (number : Nat) (e : Error) :
    Policy.stopAt number e = .answerAt number fun _ => e := by
  funext n d
  simp only [Policy.stopAt, Policy.answerAt, beq_iff_eq, Int.ofNat_inj]

/-- The policy that stops at the first failure answers that failure with itself. -/
theorem cut_stop (events : List Event) :
    cut .stop 0 events = cut (.answerAt 1 Error.Diagnosis.toError) 0 events := by
  induction events with
  | nil => rfl
  | cons event rest ih =>
    simp only [cut, ih]
    cases event.failure? with
    | none => rfl
    | some d => simp [Policy.stop, Policy.answerAt]

/-- A policy only truncates a compilation. If it answers the failure with a number with an error,
    and a compilation that goes on after every failure has that many failures, then the compilation
    ends with that error, after these failures and with the comments before. Else the two are the
    same. By default the first failure is itself the error. -/
theorem policy_only_truncates (options : Options) (source : Bytes) (number : Nat)
    (answer : Error.Diagnosis → Error) :
    let full := compile { options with policy := .proceed } source
    let part := compile { options with policy := .answerAt (number + 1) answer } source
    let stopped := compile { options with policy := .stop } source
    (match (failures full.events)[number]? with
      | some d =>
          part.result = .error (.error (answer d)) ∧
            failures part.events = (failures full.events).take (number + 1) ∧
            comments part.events <+: comments full.events
      | none => part = full) ∧
    match (failures full.events)[0]? with
      | some d => stopped.result = .error (.error d.toError)
      | none => stopped = full := by
  intro full part stopped
  have part_eq := compile_cut { options with policy := .answerAt (number + 1) answer } source
  have stopped_eq := compile_cut { options with policy := .stop } source
  rw [cut_stop] at stopped_eq
  constructor
  · have ends := cut_answerAt answer 0 number full.events
    rw [Nat.zero_add] at ends
    cases found : (failures full.events)[number]? with
    | none =>
      rw [found] at ends
      rw [ends] at part_eq
      exact part_eq
    | some d =>
      rw [found] at ends
      obtain ⟨front, cut, isPrefix, taken⟩ := ends
      rw [cut] at part_eq
      have same : part = ⟨front, .error (.error (answer d))⟩ := part_eq
      rw [same]
      exact ⟨rfl, taken, isPrefix.filterMap _⟩
  · have ends := cut_answerAt Error.Diagnosis.toError 0 0 full.events
    cases found : (failures full.events)[0]? with
    | none =>
      rw [found] at ends
      rw [ends] at stopped_eq
      exact stopped_eq
    | some d =>
      rw [found] at ends
      obtain ⟨front, cut, -, -⟩ := ends
      rw [cut] at stopped_eq
      exact congrArg Step.result stopped_eq

end Definition

end Rulebook

import Rulebook.Proofs.Definition.Outcome

/-!
# Walks over lines

A compilation with the grammar of definitions that goes on after every failure walks over the lines of
its source. A line reports what it comes to and leaves a registry to the next one, and nothing else is
handed on: `Definition.compile_walk`. So where the lines stand and which tags the rules bear has no
part in what is reported, but for positions: `Definition.walk_elsewhere`.
-/

namespace Rulebook

open Bytes

/-- A position further on, in the same column. -/
def Position.shift (offset line : Nat) (p : Position) : Position :=
  { p with offset := p.offset + offset, line := p.line + line }

theorem Position.advance_shift (offset line : Nat) (p : Position) (s : Bytes) :
    (p.shift offset line).advance s = (p.advance s).shift offset line := by
  simp only [advance, shift, Position.mk.injEq, true_and, and_true]
  omega

@[simp] theorem Position.shift_zero (p : Position) : p.shift 0 0 = p := by
  simp [shift]

namespace Definition

/-- The options of a compilation with the grammar of definitions over a registry. -/
def Options.over (base : Registry) (filename : Bytes) (policy : Policy) (tag : Nat) : Options :=
  ⟨filename, policy, some (some base), none, tag⟩

/-- An event further on. -/
def Event.shift (offset line : Nat) : Event → Event
  | comment position content => .comment (position.shift offset line) content
  | failure d => .failure { d with position := d.position.shift offset line }
  | redefining name => .redefining name
  | defined name at_ pattern => .defined name (at_ + line) pattern

@[simp] theorem Event.shift_zero (e : Event) : e.shift 0 0 = e := by
  cases e <;> simp [shift]

namespace Outcome

/-- What a line that starts at a position reports if it comes to something, with the registry that is
    known there. -/
def events (p : Position) (l : Bytes) (r : Registry) : Outcome → List Event
  | blank => []
  | comment content => [.comment p content]
  | defined name rule =>
      (if (r.get? name).isSome then [.redefining name] else []) ++
        [.defined name p.line rule.namedPattern]
  | failed k cause => [.failure ⟨p.advance (l.take k), l.trim, cause⟩]

/-- The registry that is left by what a line comes to. -/
def register (r : Registry) : Outcome → Registry
  | defined name rule => r.insert name rule
  | _ => r

variable {o o' : Outcome} {r r' : Registry}

/-- Outcomes that differ only in tags are the same, or they define rules of one shape. -/
theorem eq_or_defined (same : o'.shape = o.shape) :
    o' = o ∨ ∃ name rule rule', o = .defined name rule ∧ o' = .defined name rule' ∧
      rule'.shape = rule.shape := by
  cases o with
  | defined name rule =>
    cases o' with
    | defined name' rule' =>
      obtain ⟨rfl, shapes⟩ := Outcome.defined.inj same
      exact .inr ⟨name', rule, rule', rfl, rfl, shapes⟩
    | _ => cases same
  | _ =>
    cases o' with
    | defined name' rule' => cases same
    | _ => exact .inl same

theorem shape_register (same : o'.shape = o.shape) (registry : r'.shape = r.shape) :
    (o'.register r').shape = (o.register r).shape := by
  obtain rfl | ⟨name, rule, rule', rfl, rfl, shapes⟩ := eq_or_defined same
  · cases o' with
    | defined name rule => simp only [register, Registry.shape_insert, registry]
    | _ => exact registry
  · simp only [register, Registry.shape_insert, registry, shapes]

theorem events_shift (same : o'.shape = o.shape) (registry : r'.shape = r.shape) (p : Position)
    (l : Bytes) (offset line : Nat) :
    o'.events (p.shift offset line) l r' = (o.events p l r).map (Event.shift offset line) := by
  have known (name : Bytes) : (r'.get? name).isSome = (r.get? name).isSome := by
    have shapes := congrArg (fun r : Registry => (r.get? name).isSome) registry
    simpa only [Registry.get?_shape, Option.isSome_map] using shapes
  have notes (name : Bytes) :
      (if (r.get? name).isSome then [Event.redefining name] else []).map (Event.shift offset line) =
        if (r.get? name).isSome then [.redefining name] else [] := by
    split <;> rfl
  obtain rfl | ⟨name, rule, rule', rfl, rfl, shapes⟩ := eq_or_defined same
  · cases o' with
    | blank => rfl
    | comment content => rfl
    | defined name rule =>
      rw [events, events, known, List.map_append, notes]
      rfl
    | failed k cause =>
      rw [events, events, Position.advance_shift]
      rfl
  · have pattern : rule'.namedPattern = rule.namedPattern := by
      rw [← Rule.namedPattern_shape rule', shapes, Rule.namedPattern_shape]
    rw [events, events, known, pattern, List.map_append, notes]
    rfl

end Outcome

/-- What a line comes to that a marker stands at. -/
def outcomeAt (tag : Nat) (m : Marker) (r : Registry) (l : Bytes) : Outcome :=
  outcome ⟨.bootstrap, r, m, l.trim, tag + m.position.offset.toNat⟩ l

/-- What lines report one after another, and the registry that they leave. -/
def walk (tag : Nat) (m : Marker) (r : Registry) : List Bytes → List Event × Registry
  | [] => ([], r)
  | l :: rest =>
      let later := walk tag (m.forward l.length) ((outcomeAt tag m r l).register r) rest
      ((outcomeAt tag m r l).events m.position l r ++ later.1, later.2)

/-- The marker past some lines. -/
def pass (m : Marker) (ls : List Bytes) : Marker := ls.foldl (fun m l => m.forward l.length) m

/-- True of a marker that stands before some lines. -/
def Before (m : Marker) (ls : List Bytes) : Prop := ∃ more, m.rest = ls.flatten ++ more

variable {tag : Nat} {m m' : Marker} {r r' : Registry} {l : Bytes} {ls rest : List Bytes}

theorem Before.position (h : Before m (l :: rest)) :
    (m.forward l.length).position = m.position.advance l := by
  obtain ⟨more, text⟩ := h
  rw [Marker.forward, text, List.flatten_cons, List.append_assoc, List.take_left]

theorem Before.forward (h : Before m (l :: rest)) : Before (m.forward l.length) rest := by
  obtain ⟨more, text⟩ := h
  refine ⟨more, ?_⟩
  rw [Marker.forward, text, List.flatten_cons, List.append_assoc, List.drop_left]

theorem before_start (filename source : Bytes) :
    Before (.start filename source) (cutLines source) :=
  ⟨[], by rw [flatten_cutLines, List.append_nil, Marker.start]⟩

theorem Before.of_append {ls' : List Bytes} (h : Before m (ls ++ ls')) : Before m ls := by
  obtain ⟨more, text⟩ := h
  exact ⟨ls'.flatten ++ more, by rw [text, List.flatten_append, List.append_assoc]⟩

theorem Before.pass {ls' : List Bytes} (h : Before m (ls ++ ls')) :
    Before (pass m ls) ls' := by
  induction ls generalizing m with
  | nil => exact h
  | cons l rest ih => exact ih h.forward

/-- The position past some lines. -/
theorem Before.position_pass (lines : Lines ls) (h : Before m ls) :
    (Definition.pass m ls).position = m.position.advance ls.flatten := by
  induction ls generalizing m with
  | nil => exact (Position.advance_nil _).symm
  | cons l rest ih =>
    refine (ih lines.tail h.forward).trans ?_
    rw [h.position, List.flatten_cons]
    cases lines with
    | last => simp
    | cons => exact Position.advance_line ..

/-- A walk over some lines and others after them. -/
theorem walk_append (tag : Nat) (m : Marker) (r : Registry) (ls ls' : List Bytes) :
    walk tag m r (ls ++ ls') =
      let before := walk tag m r ls
      let after := walk tag (pass m ls) before.2 ls'
      (before.1 ++ after.1, after.2) := by
  induction ls generalizing m r with
  | nil => rfl
  | cons l rest ih =>
    rw [List.cons_append, walk, ih]
    simp only [walk, pass, List.foldl_cons, List.append_assoc]

/-- What a walk reports a line of it reports. -/
theorem mem_walk {e : Event} :
    e ∈ (walk tag m r ls).1 ↔ ∃ front l back, ls = front ++ l :: back ∧
      e ∈ (outcomeAt tag (pass m front) (walk tag m r front).2 l).events (pass m front).position l
        (walk tag m r front).2 := by
  induction ls generalizing m r with
  | nil => simp [walk]
  | cons l rest ih =>
    rw [walk, List.mem_append, ih]
    constructor
    · rintro (here | ⟨front, l', back, rfl, there⟩)
      · exact ⟨[], l, rest, rfl, here⟩
      · exact ⟨l :: front, l', back, rfl, there⟩
    · rintro ⟨front, l', back, eq, there⟩
      cases front with
      | nil =>
        cases eq
        exact .inl there
      | cons _ front =>
        cases eq
        exact .inr ⟨front, l', back, rfl, there⟩

/-! ### Lines elsewhere -/

/-- A line comes to the same wherever it stands, but for tags. -/
theorem shape_outcomeAt (tag tag' : Nat) (registry : r'.shape = r.shape)
    (before : Before m (l :: rest)) (before' : Before m' (l :: rest)) :
    (outcomeAt tag' m' r' l).shape = (outcomeAt tag m r l).shape := by
  have at_ {m : Marker} (h : Before m (l :: rest)) : ∃ more, m.rest = l ++ more := by
    obtain ⟨more, text⟩ := h
    exact ⟨rest.flatten ++ more, by rw [text, List.flatten_cons, List.append_assoc]⟩
  exact shape_outcome ⟨rfl, rfl, registry⟩ ⟨rfl, at_ before⟩ ⟨rfl, at_ before'⟩

/-- Lines report the same wherever they stand, with the positions further on. By induction on the
    lines: the registries that are handed on have the same shape. -/
theorem walk_elsewhere (tag tag' : Nat) {offset line : Nat} (registry : r'.shape = r.shape)
    (before : Before m ls) (before' : Before m' ls)
    (place : m'.position = m.position.shift offset line) :
    (walk tag' m' r' ls).1 = (walk tag m r ls).1.map (Event.shift offset line) ∧
      (walk tag' m' r' ls).2.shape = (walk tag m r ls).2.shape := by
  induction ls generalizing m m' r r' with
  | nil => exact ⟨rfl, registry⟩
  | cons l rest ih =>
    have same := shape_outcomeAt tag tag' registry before before'
    have next : (m'.forward l.length).position = (m.forward l.length).position.shift offset line := by
      rw [before.position, before'.position, place, Position.advance_shift]
    obtain ⟨events, left⟩ :=
      ih (Outcome.shape_register same registry) before.forward before'.forward next
    refine ⟨?_, left⟩
    simp only [walk, List.map_append, events, place, Outcome.events_shift same registry]

/-- Lines report the same again from the same position. -/
theorem walk_again (tag tag' : Nat) (registry : r'.shape = r.shape) (before : Before m ls)
    (before' : Before m' ls) (place : m'.position = m.position) :
    (walk tag' m' r' ls).1 = (walk tag m r ls).1 ∧
      (walk tag' m' r' ls).2.shape = (walk tag m r ls).2.shape := by
  obtain ⟨events, left⟩ := walk_elsewhere tag tag' registry before before'
    (place.trans (Position.shift_zero _).symm)
  rw [funext Event.shift_zero, List.map_id'] at events
  exact ⟨events, left⟩

/-! ### Compilations -/

theorem events_after (s : State) (l : Bytes) (o : Outcome) :
    (s.after l o).events = (o.events s.marker.position l s.registry).reverse ++ s.events := by
  cases o with
  | defined name rule =>
    simp only [State.after, Outcome.events]
    split <;> rfl
  | _ => rfl

theorem registry_after (s : State) (l : Bytes) (o : Outcome) :
    (s.after l o).registry = o.register s.registry := by
  cases o <;> rfl

theorem marker_after (s : State) (l : Bytes) (o : Outcome) : (s.after l o).marker = s.marker := by
  cases o with
  | defined name rule =>
    simp only [State.after]
    split <;> rfl
  | _ => rfl

/-- Compiling lines one after another is a walk over them. -/
theorem readLines_walk (tag : Nat) {offset : Nat} (lines : Lines ls) (s : State)
    (place : s.marker.position.offset = offset) (text : s.marker.rest = ls.flatten) :
    ∃ s', readLines ⟨.bootstrap, .proceed, tag⟩ ls s = ⟨s'.events, .ok s'⟩ ∧
      s'.events = (walk tag s.marker s.registry ls).1.reverse ++ s.events ∧
      s'.registry = (walk tag s.marker s.registry ls).2 := by
  induction ls generalizing s offset with
  | nil => exact ⟨s, rfl, rfl, rfl⟩
  | cons l rest ih =>
    have at_ : s.At l offset := ⟨place, rest, lines, text⟩
    have before : Before s.marker (l :: rest) := ⟨[], by rw [text, List.append_nil]⟩
    let o := outcomeAt tag s.marker s.registry l
    let s₁ := (s.after l o).pass l
    have marker : s₁.marker = s.marker.forward l.length := by
      rw [show s₁.marker = (s.after l o).marker.forward l.length from rfl, marker_after]
    have registry : s₁.registry = o.register s.registry := registry_after s l o
    have place₁ : s₁.marker.position.offset = (offset + l.length : Nat) := by
      rw [marker, before.position, Position.advance, place]
      rfl
    obtain ⟨s', read, events, left⟩ := ih lines.tail s₁ place₁
      (by rw [marker, Marker.forward, text, List.flatten_cons, List.drop_left])
    refine ⟨s', ?_, ?_, ?_⟩
    · rw [readLines, readAt_eq at_]
      exact read
    · rw [events, marker, registry, show s₁.events = (s.after l o).events from rfl, events_after,
        walk, List.reverse_append, List.append_assoc]
    · rw [left, marker, registry, walk]

/-- A compilation that goes on after every failure is a walk over the lines of its source. -/
theorem compile_walk (base : Registry) (filename source : Bytes) (tag : Nat) :
    compile (.over base filename .proceed tag) source =
      let w := walk tag (.start filename source) base (cutLines source)
      ⟨w.1, .ok w.2⟩ := by
  have place : (Position.start filename).offset = (0 : Nat) := rfl
  obtain ⟨s, read, events, registry⟩ := readLines_walk tag (lines_cutLines source)
    ⟨base, .start filename source, 0, []⟩ place (flatten_cutLines source).symm
  change compileWith ⟨.bootstrap, .proceed, tag⟩ filename base source = _
  rw [compileWith_eq, read]
  simp only [events, registry, Except.map, List.append_nil, List.reverse_reverse]

end Definition

end Rulebook

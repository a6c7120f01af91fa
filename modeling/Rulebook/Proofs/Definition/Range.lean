import Rulebook.Proofs.Definition.Literals
import Rulebook.Proofs.Definition.Run

/-!
# Places that a compilation asks for

Whatever the grammar, a compilation asks its marker only for places that lie neither before it nor
beyond the source: `Definition.inRange_compile`. All that it asks for comes from the trees of the
grammar, which tell the truth about their text at every depth and come in the order of the text. So a
compilation halts for no other reasons than reading a value does (`Definition.within_compileWith`).
-/

namespace Rulebook

open Bytes

/-! ### Markers -/

/-- True of a marker that stands somewhere in a source. -/
def Marker.Over (m : Marker) (source : Bytes) : Prop :=
  ∃ k : Nat, m.position.offset = k ∧ k ≤ source.length ∧ m.rest = source.drop k

namespace Marker

variable {m : Marker} {source : Bytes} {x : Int}

theorem over_start (filename source : Bytes) : (Marker.start filename source).Over source :=
  ⟨0, rfl, Nat.zero_le _, rfl⟩

theorem Over.length (h : m.Over source) :
    m.position.offset + m.rest.length = source.length ∧ 0 ≤ m.position.offset := by
  obtain ⟨k, offset, fits, rest⟩ := h
  rw [offset, rest, List.length_drop]
  omega

theorem Over.forward (h : m.Over source) {n : Nat} (fits : n ≤ m.rest.length) :
    (m.forward n).Over source := by
  obtain ⟨k, offset, within, rest⟩ := h
  have length : (m.rest.take n).length = n := List.length_take_of_le fits
  rw [rest, List.length_drop] at fits
  refine ⟨k + n, ?_, by omega, ?_⟩
  · simp only [Marker.forward, Position.advance, offset, length]
    omega
  · simp only [Marker.forward, rest, List.drop_drop]

/-- A place is at some distance if it is between the marker and the end of the source. -/
theorem Over.distance_eq_ok (h : m.Over source) {n : Nat} :
    m.distance x = .ok n ↔
      x = m.position.offset + n ∧ m.position.offset ≤ x ∧ x ≤ source.length := by
  have length := h.length
  unfold Marker.distance
  split
  · simp only [reduceCtorEq, false_iff]
    omega
  · split
    · simp only [Except.ok.injEq]
      omega
    · simp only [reduceCtorEq, false_iff]
      omega

theorem Over.distance (h : m.Over source) (low : m.position.offset ≤ x) (high : x ≤ source.length) :
    ∃ n, m.distance x = .ok n ∧ x = m.position.offset + n ∧ n ≤ m.rest.length := by
  have length := h.length
  refine ⟨(x - m.position.offset).toNat, h.distance_eq_ok.2 ⟨by omega, low, high⟩, by omega, by omega⟩

/-- A marker can move to the places between it and the end of its source, and to no other. -/
theorem Over.seek_iff (h : m.Over source) :
    (∃ m', m.seek x = .ok m') ↔ m.position.offset ≤ x ∧ x ≤ source.length := by
  constructor
  · rintro ⟨m', moved⟩
    unfold seek at moved
    split at moved
    · cases moved
    · exact (h.distance_eq_ok.1 ‹_›).2
  · rintro ⟨low, high⟩
    obtain ⟨n, distance, -⟩ := h.distance low high
    exact ⟨_, by rw [seek, distance]⟩

theorem Over.locate_iff (h : m.Over source) :
    (∃ p, m.locate x = .ok p) ↔ m.position.offset ≤ x ∧ x ≤ source.length := by
  rw [← h.seek_iff]
  unfold locate
  cases m.seek x <;> simp

theorem Over.skip_iff (h : m.Over source) :
    (∃ crossed, m.skip x = .ok crossed) ↔ m.position.offset ≤ x ∧ x ≤ source.length := by
  rw [← h.seek_iff]
  unfold skip seek
  cases m.distance x <;> simp

/-- Where a marker is that has moved. -/
theorem Over.of_seek (h : m.Over source) {m' : Marker} (moved : m.seek x = .ok m') :
    m'.Over source ∧ m'.position.offset = x := by
  unfold seek at moved
  split at moved
  · cases moved
  · rename_i n distance
    cases moved
    obtain ⟨place, low, high⟩ := h.distance_eq_ok.1 distance
    have length := h.length
    have fits : n ≤ m.rest.length := by omega
    refine ⟨h.forward fits, ?_⟩
    simp only [Marker.forward, Position.advance, List.length_take_of_le fits, place]

theorem Over.of_skip (h : m.Over source) {us : List Unmatched} {m' : Marker}
    (moved : m.skip x = .ok (us, m')) : m'.Over source ∧ m'.position.offset = x := by
  unfold skip at moved
  split at moved
  · cases moved
  · rename_i n distance
    cases moved
    exact h.of_seek (by rw [seek, distance])

end Marker

namespace Definition

/-! ### Results -/

/-- True of a result that, if it halts, halts for a reason of some kind. -/
structure Within {α : Type} (allowed : Halt → Prop) (result : Except Halt α) : Prop where
  error : ∀ halt, result = .error halt → allowed halt

/-- True of the reasons to halt other than a place that a marker cannot move to. -/
def Halt.InRange (halt : Halt) : Prop := ∀ fault, halt = .range fault → fault = .quotes

/-- True of the kinds of reasons to which all errors belong. -/
def Errors (allowed : Halt → Prop) : Prop := ∀ e, allowed (.error e)

theorem errors_inRange : Errors Halt.InRange := fun _ => nofun

variable {α β : Type} {allowed : Halt → Prop}

theorem within_ok (a : α) : Within allowed (.ok a : Except Halt α) := ⟨nofun⟩

theorem within_error {halt : Halt} (h : allowed halt) :
    Within allowed (.error halt : Except Halt α) := ⟨fun _ eq => by cases eq; exact h⟩

theorem within_lift (errors : Errors allowed) (x : Except Error α) : Within allowed (lift x) := by
  cases x with
  | ok a => exact within_ok a
  | error e => exact within_error (errors e)

theorem Within.bind {x : Except Halt α} {f : α → Except Halt β} (h : Within allowed x)
    (later : ∀ a, x = .ok a → Within allowed (f a)) : Within allowed (x >>= f) := by
  cases x with
  | ok a => exact later a rfl
  | error halt => exact within_error (h.error halt rfl)

/-- The trees of a rule one after another. -/
theorem within_mapM (errors : Errors allowed) {r : Rule} {text : Bytes} {f : Tree → Except Halt β}
    (h : ∀ t ∈ r.nodes text, Within allowed (f t)) :
    Within allowed ((r.trees text).mapM fun result => do
      let node ← lift result
      f node) := by
  unfold Rule.nodes at h
  generalize r.trees text = results at h
  induction results with
  | nil => exact within_ok _
  | cons result rest ih =>
    rw [List.mapM_cons]
    have here : Within allowed (do let node ← lift result; f node) := by
      refine (within_lift errors result).bind fun t eq => h t ?_
      rw [lift_eq_ok.1 eq]
      exact List.mem_cons_self ..
    refine here.bind fun b _ => ?_
    have others := ih fun t mem => h t ((List.sublist_cons_self ..).filterMap _ |>.subset mem)
    exact others.bind fun bs _ => within_ok _

/-! ### Values -/

/-- True of a context whose marker can move to every place of a part of the source. -/
def Context.Holds (c : Context) (base : Int) (length : Nat) : Prop :=
  c.marker.position.offset ≤ base ∧
    base + length ≤ c.marker.position.offset + c.marker.rest.length

variable {c : Context} {base : Int} {text : Bytes} {t : Tree}

theorem Context.Holds.tree (h : c.Holds base text.length) (rooted : t.Rooted text) :
    c.Holds (base + t.offset) t.text.length := by
  obtain ⟨start, offset, fits, -⟩ := rooted.stands
  obtain ⟨low, high⟩ := h
  exact ⟨by omega, by omega⟩

theorem Context.Holds.errorAt (errors : Errors allowed) {length : Nat} (h : c.Holds base length)
    (cause : Error) :
    Within allowed (.error (c.errorAt base cause) : Except Halt α) := by
  obtain ⟨low, high⟩ := h
  have located : ∃ p, c.marker.locate base = .ok p := by
    unfold Marker.locate Marker.seek Marker.distance
    rw [if_neg (by omega), if_pos (by omega)]
    exact ⟨_, rfl⟩
  obtain ⟨p, located⟩ := located
  rw [Context.errorAt, located]
  exact within_error (errors _)

/-- A grammar that is made of rules. -/
def Grammar.OfRules (g : Grammar) : Prop :=
  ∃ line token alternative name : Rule,
    g = ⟨line.matcher, token.matcher, alternative.matcher, name.matcher⟩

theorem inRange_combine (how : Combinator) (entries : List (Entry Rule)) :
    Within Halt.InRange (combine c how entries) := within_lift errors_inRange _

theorem inRange_readLiteral (h : c.Holds base text.length) {literal : Tree}
    (rooted : literal.Rooted text) : Within Halt.InRange (readLiteral c base literal) := by
  have part {child : Tree} {n : Bytes} (here : literal.child? n = some child) :=
    h.tree (rooted.child? here).1
  unfold readLiteral
  split
  · rename_i quoted here
    split
    · exact (part here).errorAt errors_inRange _
    · exact within_ok _
  · split
    · split
      · exact within_error fun fault eq => by cases eq; rfl
      · exact within_ok _
    · split
      · exact (h.tree rooted).errorAt errors_inRange _
      · rename_i bare here
        refine (within_lift errors_inRange _).bind fun isName _ => ?_
        split
        · split
          · exact (part here).errorAt errors_inRange _
          · exact within_ok _
        · exact within_ok _

/-- True of what reads the tokens of a text, if it asks for no place out of range. -/
def TokenReader.IsInRange (c : Context) (read : TokenReader) : Prop :=
  ∀ text base, c.Holds base text.length → Within Halt.InRange (read text base)

variable {read : TokenReader}

theorem inRange_readAlternative (reads : read.IsInRange c) (h : c.Holds base text.length)
    (rooted : t.Rooted text) : Within Halt.InRange (readAlternative c read base t) := by
  unfold readAlternative
  split
  · exact within_ok _
  · rename_i sequence here
    refine (reads _ _ (h.tree (rooted.child? here).1)).bind fun tokens _ => ?_
    split
    · exact within_ok _
    · exact (inRange_combine ..).bind fun _ _ => within_ok _

theorem inRange_readGroup (rules : c.grammar.OfRules) (reads : read.IsInRange c)
    (h : c.Holds base text.length) (rooted : t.Rooted text) :
    Within Halt.InRange (readGroup c read base t) := by
  obtain ⟨line, token, alternative, name, grammar⟩ := rules
  unfold readGroup
  split
  · exact (h.tree rooted).errorAt errors_inRange _
  · rename_i alternatives here
    have inside := h.tree (rooted.child? here).1
    rw [grammar]
    refine (within_mapM errors_inRange fun t mem => ?_).bind fun rules _ => inRange_combine ..
    exact inRange_readAlternative reads inside (Tree.rooted_of_mem mem)

theorem inRange_readToken (rules : c.grammar.OfRules) (reads : read.IsInRange c)
    (h : c.Holds base text.length) (rooted : t.Rooted text) :
    Within Halt.InRange (readToken c read base t) := by
  have atom_ : Within Halt.InRange (readAtom c read base t) := by
    unfold readAtom
    split
    · exact (h.tree rooted).errorAt errors_inRange _
    · rename_i atom here
      have inside := (rooted.child? here).1
      split
      · rename_i group here
        refine (inRange_readGroup rules reads h (inside.child? here).1).bind fun _ _ => ?_
        exact within_ok _
      · split
        · rename_i literal here
          exact inRange_readLiteral h (inside.child? here).1
        · exact (h.tree rooted).errorAt errors_inRange _
  refine atom_.bind fun atom _ => ?_
  split
  · exact within_ok _
  · rename_i suffix here
    split
    · exact within_ok _
    · split
      · exact (h.tree (rooted.child? here).1).errorAt errors_inRange _
      · exact (inRange_combine ..).bind fun _ _ => within_ok _

/-- The tokens of a text, by induction on how deep groups are read. -/
theorem inRange_readTokens (rules : c.grammar.OfRules) (depth : Nat) :
    (readTokens c depth).IsInRange c := by
  induction depth with
  | zero => exact fun _ _ _ => within_error nofun
  | succ depth ih =>
    intro text base h
    obtain ⟨line, token, alternative, name, grammar⟩ := id rules
    rw [readTokens, grammar]
    exact within_mapM errors_inRange fun t mem => inRange_readToken rules ih h (Tree.rooted_of_mem mem)

theorem inRange_readValue (rules : c.grammar.OfRules) (h : c.Holds base text.length) :
    Within Halt.InRange (readValue c text base) :=
  (inRange_readTokens rules _ text base h).bind fun _ _ => inRange_combine ..

/-! ### Lines -/

theorem Within.andThen {step : Step State} {next : State → Step α} (h : Within allowed step.result)
    (later : ∀ s, step.result = .ok s → Within allowed (next s).result) :
    Within allowed (step.andThen next).result := by
  obtain ⟨events, result⟩ := step
  cases result with
  | ok s => exact later s rfl
  | error halt => exact within_error (h.error halt rfl)

theorem within_fail (errors : Errors allowed) (s : State) (policy : Policy) (d : Error.Diagnosis) :
    Within allowed (s.fail policy d).result := by
  unfold State.fail
  dsimp only
  split
  · exact within_error (errors _)
  · exact within_ok _

theorem within_failAll (errors : Errors allowed) (policy : Policy) (us : List Unmatched) (s : State) :
    Within allowed (State.failAll policy us s).result := by
  induction us generalizing s with
  | nil => exact within_ok s
  | cons u us ih =>
    rw [failAll_eq]
    exact (within_fail errors ..).andThen fun s' _ => ih s'

/-- True of settings under which values are read with nothing but allowed reasons to halt. -/
structure Settings.Reads (settings : Settings) (allowed : Halt → Prop) : Prop where
  rules : settings.grammar.OfRules
  errors : Errors allowed
  value : ∀ {c : Context} {text : Bytes} {base : Int}, c.grammar = settings.grammar →
    c.Holds base text.length → Within allowed (readValue c text base)

section

variable {settings : Settings} {source : Bytes} {s : State} {node : Tree}

/-- True of a state at a tree of the source: the marker can move to every place of the tree. -/
structure State.Meets (s : State) (source : Bytes) (node : Tree) : Prop where
  stands : s.marker.Over source
  rooted : node.Rooted source
  low : s.marker.position.offset ≤ node.offset

theorem State.Meets.child? (h : s.Meets source node) {child : Tree} {n : Bytes}
    (here : node.child? n = some child) : s.Meets source child where
  stands := h.stands
  rooted := (h.rooted.child? here).1
  low := Int.le_trans h.low (h.rooted.child? here).2.1

theorem State.Meets.locate (h : s.Meets source node) :
    ∃ p, s.marker.locate node.offset = .ok p := by
  obtain ⟨start, offset, fits, -⟩ := h.rooted.stands
  exact h.stands.locate_iff.2 ⟨h.low, by omega⟩

theorem within_define (reads : settings.Reads allowed) {name value : Tree}
    (h : s.Meets source value) : Within allowed (define settings s node name value) := by
  unfold define
  refine Within.bind ?_ fun rule _ => (within_lift reads.errors _).bind fun _ _ =>
    (within_lift reads.errors _).bind fun _ _ => within_ok _
  refine reads.value rfl ⟨h.low, ?_⟩
  obtain ⟨start, offset, fits, -⟩ := h.rooted.stands
  have length := h.stands.length
  dsimp only
  omega

theorem within_readDefinition (reads : settings.Reads allowed) {name value : Tree}
    (named : s.Meets source name) (valued : s.Meets source value) :
    Within allowed (readDefinition settings s node name value).result := by
  have defined : Within allowed (define settings s node name value) := within_define reads valued
  obtain ⟨p, located⟩ := named.locate
  unfold readDefinition
  split
  · rename_i rule registry _
    have kept : (if (s.registry.get? name.text).isSome then s.report (.redefining name.text)
        else s).marker = s.marker := by
      split <;> rfl
    simp only [kept, located]
    exact within_ok _
  · rename_i e _
    have known : ∃ d, diagnose s node name e = .ok d := by
      unfold diagnose
      split
      · exact ⟨_, rfl⟩
      · rw [located]
        exact ⟨_, rfl⟩
    obtain ⟨d, known⟩ := known
    rw [known]
    exact within_fail reads.errors ..
  · rename_i halt _ eq
    rw [eq] at defined
    exact within_error (defined.error _ rfl)

theorem within_readLine (reads : settings.Reads allowed) (h : s.Meets source node) :
    Within allowed (readLine settings s node).result := by
  unfold readLine
  split
  · rename_i comment here
    obtain ⟨p, located⟩ := (h.child? here).locate
    rw [located]
    exact within_ok _
  · split
    · exact within_ok _
    · rename_i definition here
      have inside := h.child? here
      split
      · rename_i name value named valued
        exact within_readDefinition reads (inside.child? named) (inside.child? valued)
      · obtain ⟨p, located⟩ := inside.locate
        rw [located]
        exact within_fail reads.errors ..

/-- Crossing a gap up to a place of the source. -/
theorem within_skip (errors : Errors allowed) {policy : Policy} {x : Int} (stands : s.marker.Over source)
    (low : s.marker.position.offset ≤ x) (high : x ≤ source.length) :
    Within allowed (s.skip policy x).result ∧ ∀ s', (s.skip policy x).result = .ok s' →
      s'.marker.Over source ∧ s'.marker.position.offset = x := by
  obtain ⟨⟨us, m⟩, skipped⟩ := stands.skip_iff.2 ⟨low, high⟩
  have moved := stands.of_skip skipped
  simp only [State.skip, skipped]
  refine ⟨within_failAll errors .., fun s' ok => ?_⟩
  have stays := stays_failAll policy us { s with marker := m }
  have same : s'.marker = m := (stays.kept (by rw [← ok])).2
  rw [same]
  exact moved

/-- A line, with the gap before it, leaves the marker at its end. -/
theorem within_readNode (reads : settings.Reads allowed) (h : s.Meets source node) :
    Within allowed (readNode settings s node).result ∧
      ∀ s', (readNode settings s node).result = .ok s' →
        s'.marker.Over source ∧ s'.marker.position.offset = node.finish := by
  obtain ⟨grammar, policy, tag⟩ := settings
  obtain ⟨start, offset, fits, -⟩ := h.rooted.stands
  obtain ⟨fine, moved⟩ := within_skip (s := s) reads.errors h.stands h.low (show node.offset ≤ source.length by omega)
  rw [readNode_eq]
  cases skipped : s.skip policy node.offset with
  | mk events result =>
    rw [skipped] at fine moved
    cases result with
    | error halt => exact ⟨within_error (fine.error _ rfl), fun _ ok => by cases ok⟩
    | ok s₁ =>
      obtain ⟨stands, there⟩ := moved s₁ rfl
      have meets : s₁.Meets source node := ⟨stands, h.rooted, there.le⟩
      have stays := stays_readLine ⟨grammar, policy, tag⟩ s₁ node
      have read := within_readLine reads meets
      simp only [Step.andThen]
      cases line : readLine ⟨grammar, policy, tag⟩ s₁ node with
      | mk events result =>
        rw [line] at read
        cases result with
        | error halt => exact ⟨within_error (read.error _ rfl), fun _ ok => by cases ok⟩
        | ok s₂ =>
          have same := (stays.kept line).2
          obtain ⟨m, sought⟩ := (same ▸ stands : s₂.marker.Over source).seek_iff.2
            ⟨show s₂.marker.position.offset ≤ node.finish by
              rw [same, there, Tree.finish]; omega, by rw [Tree.finish]; omega⟩
          have passed := (same ▸ stands : s₂.marker.Over source).of_seek sought
          simp only [passLine, sought]
          refine ⟨within_ok _, fun s' ok => ?_⟩
          cases ok
          exact passed

/-- The lines that were found, by induction on their number: the marker stands at the end of the
    line before, and the next line starts there or later. -/
theorem within_readNodes (reads : settings.Reads allowed) (results : List (Except Error Tree))
    (ordered : Tree.InOrder (results.filterMap Except.toOption))
    (rooted : ∀ t ∈ results.filterMap Except.toOption, t.Rooted source)
    (stands : s.marker.Over source)
    (low : ∀ t ∈ (results.filterMap Except.toOption).head?, s.marker.position.offset ≤ t.offset) :
    Within allowed (readNodes settings source.length results s).result := by
  obtain ⟨grammar, policy, tag⟩ := settings
  induction results generalizing s with
  | nil =>
    have length := stands.length
    rw [readNodes_nil]
    exact (within_skip reads.errors stands (by omega) (by omega)).1.andThen fun _ _ => within_ok _
  | cons result rest ih =>
    cases result with
    | error e => exact within_error (reads.errors _)
    | ok node =>
      rw [readNodes_cons]
      rw [List.filterMap_cons_some (rfl : (Except.ok node).toOption = some node)]
        at ordered rooted low
      have here : s.Meets source node :=
        ⟨stands, rooted node List.mem_cons_self, low node rfl⟩
      obtain ⟨fine, moved⟩ := within_readNode reads here
      refine fine.andThen fun s' ok => ?_
      obtain ⟨stands', there⟩ := moved s' ok
      refine ih ordered.2 (fun t mem => rooted t (List.mem_cons_of_mem _ mem)) stands' fun t mem => ?_
      rw [there]
      exact (ordered.1 t mem).1

end

theorem ofRules_bootstrap : Grammar.bootstrap.OfRules := ⟨_, _, _, _, rfl⟩

theorem ofRules_ofRegistry {r : Registry} {g : Grammar} (h : Grammar.ofRegistry r = .ok g) :
    g.OfRules := by
  unfold Grammar.ofRegistry at h
  obtain ⟨line, hl, h⟩ := Except.bind_eq_ok.1 h
  obtain ⟨token, ht, h⟩ := Except.bind_eq_ok.1 h
  obtain ⟨alternative, ha, h⟩ := Except.bind_eq_ok.1 h
  obtain ⟨name, hn, h⟩ := Except.bind_eq_ok.1 h
  cases h
  dsimp only at hl ht ha hn
  split at hl
  case h_1 => cases hl
  split at ht
  case h_1 => cases ht
  split at ha
  case h_1 => cases ha
  split at hn
  case h_1 => cases hn
  cases hl
  cases ht
  cases ha
  cases hn
  exact ⟨_, _, _, _, rfl⟩

theorem reads_inRange {settings : Settings} (rules : settings.grammar.OfRules) :
    settings.Reads Halt.InRange :=
  ⟨rules, errors_inRange, fun grammar h => inRange_readValue (by rw [grammar]; exact rules) h⟩

/-- A compilation halts for no other reasons than reading a value does, apart from errors. -/
theorem within_compileWith {settings : Settings} (reads : settings.Reads allowed)
    (filename : Bytes) (base : Registry) (source : Bytes) :
    Within allowed (compileWith settings filename base source).result := by
  obtain ⟨line, token, alternative, name, grammar⟩ := reads.rules
  have trees : settings.grammar.line.trees source = line.trees source := by rw [grammar]; rfl
  simp only [compileWith, trees]
  obtain ⟨faithful, ordered⟩ := Rule.nodes_faithful line source
  refine within_readNodes reads _ ordered (fun t mem => ⟨line, faithful t mem⟩)
    (Marker.over_start ..) fun t mem => ?_
  obtain ⟨start, offset, -⟩ := (Tree.rooted_of_mem (r := line) (List.mem_of_mem_head? mem)).stands
  change (0 : Int) ≤ t.offset
  omega

/-- A compilation never asks for a place that its marker cannot move to, whatever its grammar. -/
theorem inRange_compile (options : Options) (source : Bytes) :
    Within Halt.InRange (compile options source).result := by
  unfold compile
  split
  · exact within_error (errors_inRange _)
  · split
    · exact within_error (errors_inRange _)
    · rename_i grammar known
      refine within_compileWith (reads_inRange ?_) ..
      cases given : options.grammar with
      | none =>
        rw [given] at known
        cases known
        exact ofRules_bootstrap
      | some r =>
        rw [given] at known
        exact ofRules_ofRegistry known

end Definition

end Rulebook

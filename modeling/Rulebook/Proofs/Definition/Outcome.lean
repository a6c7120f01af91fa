import Rulebook.Proofs.Definition.Alike
import Rulebook.Proofs.Definition.Run
import Rulebook.Proofs.Tree.Shift

/-!
# What a line comes to

A line is blank, or a comment, or the definition of a rule, or a failure. Which of them it is depends
on the line and on the shapes of the rules that are known when it is read: `Definition.shape_outcome`.
A compilation that no failure ends takes one line after another and does what each comes to:
`Definition.readAt_eq`.
-/

namespace Rulebook

open Bytes

namespace Definition

open Bootstrap (comment ruleEntry DefinitionAt)
open Rule (PartAt)

/-! ### Rules of definitions -/

/-- The rule that a definition gives to a name. -/
def ruleOf (c : Context) (name value : Tree) : Except Halt Rule := do
  let rule ← readValue c value.text (c.from value.offset)
  let _ ← lift rule.compile
  let _ ← lift (c.registry.set name.text (some rule))
  pure rule

variable {c c' : Context} {l : Bytes} {name value : Tree} {k : Nat}

/-- True of errors that tell neither where they arose nor what is wrong with a value. -/
structure Placeless (e : Error) : Prop where
  other : ofValue e = false
  nowhere : e.diagnosis? = none

theorem placeless_compile {r : Rule} {e : Error} (failed : r.compile = .error e) : Placeless e := by
  have refused {source : Bytes} (failed : Pattern.Regex.ofPattern source = .error e) :
      Placeless e := by
    unfold Pattern.Regex.ofPattern at failed
    split at failed
    · cases failed
      exact ⟨rfl, rfl⟩
    · split at failed
      · cases failed
        exact ⟨rfl, rfl⟩
      · cases failed
  unfold Rule.compile at failed
  split at failed
  · cases failed
    exact refused ‹_›
  · split at failed
    · cases failed
      exact refused ‹_›
    · cases failed

theorem placeless_set {r : Registry} {n : Bytes} {rule : Rule} {e : Error}
    (failed : r.set n (some rule) = .error e) : Placeless e := by
  unfold Registry.set at failed
  dsimp only at failed
  split at failed
  · cases failed
  · cases failed
    exact ⟨rfl, rfl⟩

/-- What goes wrong with a definition has no place, or lies in its value. -/
theorem ruleOf_error (at_ : c.At l) (offset : value.offset = k) (part : PartAt l k value.text)
    {h : Halt} (failed : ruleOf c name value = .error h) :
    (∃ e, h = .error e ∧ Placeless e) ∨
      ∃ j e, k ≤ j ∧ j ≤ k + value.text.length ∧ ofValue e = true ∧
        h = c.errorAt (c.offset j) e ∧
        ∀ n, faulty? e = some n →
          Leftmost c l (literals (value.text.length + 1) value.text (c.offset k)) j e n := by
  have reported := reported_readValue at_ part
  unfold ruleOf at failed
  rw [offset, show c.from k = c.offset k from rfl] at failed
  cases read : readValue c value.text (c.offset k) with
  | error halt =>
    rw [read] at failed reported
    cases failed
    obtain ⟨code, reason, rfl⟩ | placed := reported.leftmost (row_literals _ _ _ part)
    · exact .inl ⟨_, rfl, rfl, rfl⟩
    · exact .inr placed
  | ok rule =>
    rw [read] at failed
    change (lift rule.compile >>= _) = _ at failed
    cases compiled : rule.compile with
    | error e =>
      rw [compiled] at failed
      cases failed
      exact .inl ⟨e, rfl, placeless_compile compiled⟩
    | ok both =>
      rw [compiled] at failed
      change (lift (c.registry.set name.text (some rule)) >>= _) = _ at failed
      cases set : c.registry.set name.text (some rule) with
      | error e =>
        rw [set] at failed
        cases failed
        exact .inl ⟨e, rfl, placeless_set set⟩
      | ok registry =>
        rw [set] at failed
        cases failed

theorem alike_ruleOf (alike : c.Alike c') (name value : Tree) :
    Alike c c' Rule.shape (ruleOf c name value) (ruleOf c' name value) := by
  refine (alike_readValue alike _ _).bind fun r r' same => ?_
  have compiled : r'.compile = r.compile := by
    rw [← Rule.compile_shape, same, Rule.compile_shape]
  rw [compiled]
  cases known : r.compile with
  | error e => exact .inl ⟨rfl, (placeless_compile known).nowhere⟩
  | ok both =>
    change Alike c c' Rule.shape (lift (c.registry.set name.text (some r)) >>= fun _ => pure r)
      (lift (c'.registry.set name.text (some r')) >>= fun _ => pure r')
    unfold Registry.set
    dsimp only
    split
    · exact same
    · exact .inl ⟨rfl, rfl⟩

/-! ### Outcomes -/

/-- What a line comes to. -/
inductive Outcome where
  /-- Nothing. -/
  | blank
  /-- A comment with its content. -/
  | comment (content : Bytes)
  /-- A rule under a name. -/
  | defined (name : Bytes) (rule : Rule)
  /-- A failure at an offset of the line, with its cause if the line is a definition. -/
  | failed (offset : Nat) (cause : Option Error)

/-- The outcome with the tags of its rule forgotten. -/
def Outcome.shape : Outcome → Outcome
  | defined name rule => .defined name rule.shape
  | o => o

/-- The state after a line that comes to something. -/
def State.after (s : State) (l : Bytes) : Outcome → State
  | .blank => s
  | .comment content => s.report (.comment s.marker.position content)
  | .defined name rule =>
      { (if (s.registry.get? name).isSome then s.report (.redefining name) else s) with
        registry := s.registry.insert name rule }.report
          (.defined name s.marker.position.line rule.namedPattern)
  | .failed k cause =>
      { s.report (.failure ⟨s.marker.position.advance (l.take k), l.trim, cause⟩) with
        failures := s.failures + 1 }

/-- What a definition comes to. -/
def settle (c : Context) (name : Tree) : Except Halt Rule → Outcome
  | .ok rule => .defined name.text rule
  | .error (.error e) =>
      match e.diagnosis? with
      | some d => .failed (d.position.offset - c.marker.position.offset).toNat d.cause
      | none => .failed name.offset.toNat (some e)
  | .error _ => .blank

/-- The blanks that a line starts with. -/
def blanks (l : Bytes) : Bytes := ofScalars (l.scalars.takeWhile (isBlank ·.char))

/-- What a line comes to that is neither a comment nor a definition. -/
def remainder (l : Bytes) : Outcome :=
  if (dropBlank l.scalars).isEmpty then .blank else .failed (blanks l).length none

/-- What a line comes to, by what its tree would be at the start of a source. -/
def outcome (c : Context) (l : Bytes) : Outcome :=
  if comment.recognises l then
    match comment.matcher.descend l 0 with
    | .error _ => .blank
    | .ok t => .comment (((t.child? "content").map Tree.text).getD [])
  else if ruleEntry.recognises l then
    match ruleEntry.matcher.descend l 0 with
    | .error _ => .blank
    | .ok t =>
        match t.child? "name", t.child? "value" with
        | some name, some value => settle c name (ruleOf c name value)
        | _, _ => .blank
  else remainder l

/-- What is needed to read a line in a state. -/
def State.context (s : State) (tag : Nat) (l : Bytes) : Context :=
  ⟨.bootstrap, s.registry, s.marker, l.trim, tag + s.marker.position.offset.toNat⟩

/-- True of a state that stands at a line. -/
structure State.At (s : State) (l : Bytes) (offset : Nat) : Prop where
  offset : s.marker.position.offset = offset
  lines : ∃ rest, Lines (l :: rest) ∧ s.marker.rest = l ++ rest.flatten

variable {s : State} {tag offset : Nat}

theorem State.At.context (h : s.At l offset) : (s.context tag l).At l :=
  ⟨rfl, h.lines.elim fun rest h => ⟨rest.flatten, h.2⟩⟩

/-- A place in the line. -/
theorem State.At.locate (h : s.At l offset) {k : Nat} (fits : k ≤ l.length) :
    s.marker.locate ((k : Int) + offset) = .ok (s.marker.position.advance (l.take k)) := by
  obtain ⟨rest, -, text⟩ := h.lines
  rw [Int.add_comm, ← h.offset]
  exact Marker.locate_add text fits

/-- What the outcome of a definition with an error is. -/
theorem settle_errorAt (at_ : c.At l) {j : Nat} (fits : j ≤ l.length) (e : Error) :
    settle c name (.error (c.errorAt (c.offset j) e)) = .failed j (some e) := by
  rw [at_.errorAt fits]
  change Outcome.failed ((c.marker.position.advance (l.take j)).offset -
    c.marker.position.offset).toNat (some e) = _
  have length : (l.take j).length = j := List.length_take_of_le fits
  have far : (c.marker.position.advance (l.take j)).offset = c.marker.position.offset + j := by
    simp only [Position.advance, length]
  rw [far]
  congr 1
  omega

theorem settle_placeless {e : Error} (placeless : Placeless e) (offset : name.offset = k) :
    settle c name (.error (.error e)) = .failed k (some e) := by
  simp only [settle, placeless.nowhere, offset, Int.toNat_natCast]

/-- What a definition leads to. -/
theorem define_eq (s : State) (tag : Nat) {node n v : Tree} (text : node.text = l)
    (place : node.offset = offset) (here : s.marker.position.offset = offset) :
    define ⟨.bootstrap, .proceed, tag⟩ s node (n.shift offset) (v.shift offset) =
      (ruleOf (s.context tag l) n v).map fun rule => (rule, s.registry.insert n.text rule) := by
  have context : (⟨.bootstrap, s.registry, s.marker, node.text.trim, tag + node.offset.toNat⟩ :
      Context) = s.context tag l := by
    rw [State.context, text, place, here]
  have from_ : (v.shift offset).offset = (s.context tag l).from v.offset := by
    rw [Tree.offset_shift, Context.from, show (s.context tag l).marker = s.marker from rfl, here]
    omega
  unfold define ruleOf
  dsimp only
  rw [context, from_, Tree.text_shift, Tree.text_shift]
  cases readValue (s.context tag l) v.text ((s.context tag l).from v.offset) with
  | error h => rfl
  | ok rule =>
    change (lift rule.compile >>= _) = (lift rule.compile >>= _ : Except Halt Rule).map _
    cases rule.compile with
    | error e => rfl
    | ok both =>
      change (lift (s.registry.set n.text (some rule)) >>= _) =
        (lift (s.registry.set n.text (some rule)) >>= _ : Except Halt Rule).map _
      unfold Registry.set
      dsimp only
      split <;> rfl

/-- What follows once it is known what a definition gives. -/
def State.conclude (policy : Policy) (s : State) (node n : Tree) :
    Except Halt (Rule × Registry) → Step State
  | .ok (rule, registry) =>
      let s' := if (s.registry.get? n.text).isSome then s.report (.redefining n.text) else s
      match s.marker.locate n.offset with
      | .error fault => ⟨s'.events, .error (.range fault)⟩
      | .ok position =>
          let s'' := { s' with registry := registry }.report
            (.defined n.text position.line rule.namedPattern)
          ⟨s''.events, .ok s''⟩
  | .error (.error e) =>
      match diagnose s node n e with
      | .error fault => ⟨s.events, .error (.range fault)⟩
      | .ok d => s.fail policy d
  | .error h => ⟨s.events, .error h⟩

theorem readDefinition_eq_conclude (settings : Settings) (s : State) (node n v : Tree) :
    readDefinition settings s node n v =
      s.conclude settings.policy node n (define settings s node n v) := by
  rfl

/-- A definition does what it comes to. -/
theorem readDefinition_eq (at_ : s.At l offset) {node t n v : Tree} (text : node.text = l)
    (place : node.offset = offset) (parts : DefinitionAt l 0 t n v) :
    readDefinition ⟨.bootstrap, .proceed, tag⟩ s node (n.shift offset) (v.shift offset) =
      let s' := s.after l (settle (s.context tag l) n (ruleOf (s.context tag l) n v))
      ⟨s'.events, .ok s'⟩ := by
  obtain ⟨k, name_offset, name_part, name_some⟩ := parts.name_at
  obtain ⟨j, value_offset, value_part, value_fits⟩ := parts.value_at
  rw [Nat.zero_add] at name_offset value_offset
  have name_fits : k < l.length := by
    have := name_part.fits
    have := List.length_pos_iff.2 name_some
    omega
  have located : s.marker.locate (n.shift offset).offset =
      .ok (s.marker.position.advance (l.take k)) := by
    rw [Tree.offset_shift, name_offset]
    exact at_.locate name_fits.le
  rw [readDefinition_eq_conclude, define_eq s tag text place at_.offset]
  cases result : ruleOf (s.context tag l) n v with
  | ok rule =>
    have kept : (if (s.registry.get? n.text).isSome then s.report (.redefining n.text)
        else s).marker = s.marker := by
      split <;> rfl
    obtain ⟨rest, lines, -⟩ := at_.lines
    simp only [State.conclude, Except.map, Tree.text_shift, kept, located, settle, State.after,
      Position.line_advance (lines.notMem_take name_fits)]
  | error h =>
    obtain ⟨e, rfl, placeless⟩ | ⟨i, e, low, high, -, rfl, -⟩ :=
      ruleOf_error at_.context value_offset value_part result
    · rw [settle_placeless placeless name_offset]
      simp only [State.conclude, Except.map, diagnose, placeless.nowhere, located, State.fail,
        Policy.proceed, State.after, text]
    · have fits : i ≤ l.length := by omega
      have placed (p : Position) (d : Bytes) :
          (Error.compile p d (some e)).diagnosis? = some ⟨p, d, some e⟩ := rfl
      rw [settle_errorAt at_.context fits, at_.context.errorAt fits]
      simp only [State.conclude, Except.map, diagnose, placed, State.fail, Policy.proceed,
        State.after, State.context]

/-! ### A line does what it comes to -/

theorem lineTaker?_eq (l : Bytes) :
    Bootstrap.lineTaker? l =
      if comment.recognises l then some ⟨"comment", comment⟩
      else if ruleEntry.recognises l then some ⟨"ruleEntry", ruleEntry⟩
      else none := by
  change [(⟨"comment", comment⟩ : Entry Rule), ⟨"ruleEntry", ruleEntry⟩].find?
    (·.rule.recognises l) = _
  rw [List.find?_cons, List.find?_singleton]
  cases comment.recognises l <;> cases ruleEntry.recognises l <;> rfl

/-- A line is its blanks and what follows them. -/
theorem blanks_append (l : Bytes) : blanks l ++ ofScalars (dropBlank l.scalars) = l := by
  rw [blanks, dropBlank, ← ofScalars_append, List.takeWhile_append_dropWhile, ofScalars_scalars]

theorem take_blanks (l : Bytes) : l.take (blanks l).length = blanks l := by
  have front : blanks l <+: l := ⟨_, blanks_append l⟩
  exact (List.prefix_iff_eq_take.1 front).symm

theorem length_blanks_lt {l : Bytes} (some_char : (dropBlank l.scalars).isEmpty = false) :
    (blanks l).length < l.length := by
  cases body : dropBlank l.scalars with
  | nil => simp [body] at some_char
  | cons c more =>
    have wide := Pattern.wide_scalars l c
      ((List.dropWhile_suffix _).subset (body ▸ List.mem_cons_self ..))
    have total := congrArg List.length (blanks_append l)
    rw [body, ofScalars_cons, List.length_append, List.length_append] at total
    rw [Scalar.width] at wide
    omega

/-- What a gap reports of a line. -/
theorem unmatched?_eq (p : Position) (l : Bytes) :
    Marker.unmatched? p l =
      if (dropBlank l.scalars).isEmpty then none else some ⟨p.advance (blanks l), l.trim⟩ := by
  have front : l.scalars.take (l.scalars.length - (dropBlank l.scalars).length) =
      l.scalars.takeWhile (isBlank ·.char) := by
    have both := List.takeWhile_append_dropWhile (p := fun s : Scalar => isBlank s.char)
      (l := l.scalars)
    have length := congrArg List.length both
    rw [List.length_append] at length
    rw [List.prefix_iff_eq_take.1 (List.takeWhile_prefix (p := fun s : Scalar => isBlank s.char)),
      dropBlank]
    congr 1
    omega
  unfold Marker.unmatched?
  dsimp only
  rw [front]
  rfl

/-- A line that no entry takes. -/
theorem failAll_unmatched (s : State) (l : Bytes) :
    State.failAll .proceed (Marker.unmatched? s.marker.position l).toList s =
      let s' := s.after l (remainder l)
      ⟨s'.events, .ok s'⟩ := by
  rw [unmatched?_eq, remainder]
  split
  · rfl
  · rw [State.after, take_blanks]
    rfl

/-- The tree of a line is the tree that it would be at the start of a source, further on. -/
theorem lineTree_eq (e : Entry Rule) (offset : Nat) (l : Bytes) :
    Bootstrap.lineTree e offset l = (e.rule.matcher.descend l 0).map fun t =>
      .node [] l offset [(t.shift offset).rename e.name] := by
  have further := Matcher.descend_add l 0 offset e.rule.matcher
  rw [Nat.zero_add] at further
  rw [Bootstrap.lineTree, further]
  cases e.rule.matcher.descend l 0 <;> rfl

theorem child?_further (t : Tree) (name title : Bytes) :
    ((t.shift offset).rename title).child? name = (t.child? name).map (Tree.shift offset) := by
  rw [Tree.child?, Tree.children_rename, ← Tree.child?, Tree.child?_shift]

/-- A comment does what it comes to. -/
theorem readLine_comment (at_ : s.At l offset) {t : Tree} (start : t.offset = 0)
    (settings : Settings) :
    readLine settings s (.node [] l offset [(t.shift offset).rename "comment"]) =
      let s' := s.after l (.comment (((t.child? "content").map Tree.text).getD []))
      ⟨s'.events, .ok s'⟩ := by
  have located : s.marker.locate ((t.shift offset).rename "comment").offset =
      .ok s.marker.position := by
    rw [Tree.offset_rename, Tree.offset_shift, start]
    exact (at_.locate (Nat.zero_le _)).trans (by rw [List.take_zero, Position.advance_nil])
  have here : (Tree.node [] l offset [(t.shift offset).rename "comment"]).child? "comment" =
      some ((t.shift offset).rename "comment") := by
    simp [Tree.child?, Tree.children]
  have content : ((((t.shift offset).rename "comment").child? "content").map Tree.text).getD [] =
      ((t.child? "content").map Tree.text).getD [] := by
    rw [child?_further, Option.map_map]
    simp [Function.comp_def]
  simp only [readLine, here, located, content, State.after]

/-- A definition is read by its name and its value. -/
theorem readLine_definition (settings : Settings) (s : State) {t n v : Tree}
    (name : t.child? "name" = some n) (value : t.child? "value" = some v) :
    readLine settings s (.node [] l offset [(t.shift offset).rename "ruleEntry"]) =
      readDefinition settings s ((t.shift offset).rename "ruleEntry") (n.shift offset)
        (v.shift offset) := by
  have others : (Tree.node [] l offset [(t.shift offset).rename "ruleEntry"]).child? "comment" =
      none := by
    rw [Tree.child?, Tree.children, List.find?_singleton, Tree.name_rename, if_neg (by decide)]
  have here : (Tree.node [] l offset [(t.shift offset).rename "ruleEntry"]).child? "ruleEntry" =
      some ((t.shift offset).rename "ruleEntry") := by
    simp [Tree.child?, Tree.children]
  simp only [readLine, others, here, child?_further, name, value, Option.map_some]

theorem readAt_of_taker (settings : Settings) (at_ : s.At l offset) {e : Entry Rule}
    (taker : Bootstrap.lineTaker? l = some e) {t : Tree} (built : e.rule.matcher.descend l 0 = .ok t) :
    readAt settings l s =
      readLine settings s (.node [] l offset [(t.shift offset).rename e.name]) := by
  rw [readAt, taker]
  dsimp only
  rw [at_.offset, Int.toNat_natCast, lineTree_eq, built]
  rfl

theorem outcome_comment (c : Context) (isComment : comment.recognises l = true) {t : Tree}
    (built : comment.matcher.descend l 0 = .ok t) :
    outcome c l = .comment (((t.child? "content").map Tree.text).getD []) := by
  rw [outcome, if_pos isComment, built]

theorem outcome_definition (c : Context) (isEntry : ruleEntry.recognises l = true) {t n v : Tree}
    (built : ruleEntry.matcher.descend l 0 = .ok t) (name : t.child? "name" = some n)
    (value : t.child? "value" = some v) : outcome c l = settle c n (ruleOf c n v) := by
  have other : comment.recognises l = false := by
    by_contra both
    rw [Bootstrap.not_recognises_both (by simpa using both)] at isEntry
    cases isEntry
  rw [outcome, other, if_neg Bool.false_ne_true, if_pos isEntry, built]
  dsimp only
  rw [name, value]

theorem outcome_other (c : Context) (noComment : comment.recognises l = false)
    (noEntry : ruleEntry.recognises l = false) : outcome c l = remainder l := by
  rw [outcome, noComment, noEntry, if_neg Bool.false_ne_true, if_neg Bool.false_ne_true]

/-- The trees of comments and of definitions, and their parts. -/
theorem descend_comment (isComment : comment.recognises l = true) :
    ∃ t, comment.matcher.descend l 0 = .ok t ∧ t.offset = 0 := by
  obtain ⟨t, built, -⟩ := lineTree_ok ((lineTaker?_eq l).trans (if_pos isComment)) 0
  exact ⟨t, built, (Bootstrap.modest_comment.sound.text_of_descend nofun built).2⟩

theorem descend_definition (isEntry : ruleEntry.recognises l = true) :
    ∃ t n v, ruleEntry.matcher.descend l 0 = .ok t ∧ t.offset = 0 ∧ DefinitionAt l 0 t n v := by
  have taker := Bootstrap.lineTaker_of_mem (Bootstrap.mem_entries_line.2 (.inr rfl)) isEntry
  obtain ⟨t, built, -⟩ := lineTree_ok taker 0
  obtain ⟨n, v, parts⟩ := Bootstrap.exists_definitionAt isEntry built
  exact ⟨t, n, v, built, (Bootstrap.modest_ruleEntry.sound.text_of_descend nofun built).2, parts⟩

/-- A line does what it comes to. -/
theorem readAt_eq (at_ : s.At l offset) :
    readAt ⟨.bootstrap, .proceed, tag⟩ l s =
      let s' := s.after l (outcome (s.context tag l) l)
      ⟨s'.events, .ok s'⟩ := by
  cases isComment : comment.recognises l with
  | true =>
    have taker := Bootstrap.lineTaker_of_mem (Bootstrap.mem_entries_line.2 (.inl rfl)) isComment
    obtain ⟨t, built, start⟩ := descend_comment isComment
    rw [readAt_of_taker _ at_ taker built, outcome_comment _ isComment built]
    exact readLine_comment at_ start _
  | false =>
    cases isEntry : ruleEntry.recognises l with
    | true =>
      have taker := Bootstrap.lineTaker_of_mem (Bootstrap.mem_entries_line.2 (.inr rfl)) isEntry
      obtain ⟨t, n, v, built, start, parts⟩ := descend_definition isEntry
      rw [readAt_of_taker _ at_ taker built,
        outcome_definition _ isEntry built parts.name_part parts.value_part,
        readLine_definition _ s parts.name_part parts.value_part]
      refine readDefinition_eq at_ ?_ ?_ parts
      · rw [Tree.text_rename, Tree.text_shift, parts.text]
      · rw [Tree.offset_rename, Tree.offset_shift, start]
        omega
    | false =>
      have taker : Bootstrap.lineTaker? l = none := by
        rw [lineTaker?_eq, isComment, isEntry, if_neg Bool.false_ne_true,
          if_neg Bool.false_ne_true]
      rw [readAt, taker, outcome_other _ isComment isEntry]
      exact failAll_unmatched s l

/-! ### What a line comes to elsewhere -/

theorem offset_locate {m : Marker} {x : Int} {p : Position} (located : m.locate x = .ok p) :
    p.offset = x := by
  unfold Marker.locate Marker.seek at located
  cases far : m.distance x with
  | error fault =>
    rw [far] at located
    cases located
  | ok count =>
    rw [far] at located
    cases located
    unfold Marker.distance at far
    split at far
    · cases far
    · split at far
      · cases far
        simp only [Marker.forward, Position.advance, List.length_take]
        omega
      · cases far

/-- An error that lies at a place of a line lies at no other. -/
theorem eq_offset_of_errorAt (at_ : c.At l) {x : Int} (fits : k ≤ l.length) {e e' : Error}
    (same : c.errorAt x e = c.errorAt (c.offset k) e') : x = c.offset k ∧ e = e' := by
  rw [at_.errorAt fits] at same
  unfold Context.errorAt at same
  cases located : c.marker.locate x with
  | error fault =>
    rw [located] at same
    cases same
  | ok p =>
    rw [located] at same
    cases same
    refine ⟨?_, rfl⟩
    rw [← offset_locate located, Position.advance, Context.offset, List.length_take_of_le fits]

/-- A definition comes to the same wherever it stands, but for tags. -/
theorem shape_settle (alike : c.Alike c') (at_ : c.At l) (at_' : c'.At l) {t : Tree}
    (parts : DefinitionAt l 0 t name value) :
    (settle c' name (ruleOf c' name value)).shape = (settle c name (ruleOf c name value)).shape := by
  obtain ⟨j, offset, part, fits⟩ := parts.value_at
  rw [Nat.zero_add] at offset
  have both := alike_ruleOf alike name value
  cases result : ruleOf c name value with
  | ok rule =>
    rw [result] at both
    cases result' : ruleOf c' name value with
    | ok rule' =>
      rw [result'] at both
      exact congrArg (Outcome.defined name.text) both
    | error h' =>
      rw [result'] at both
      exact both.elim
  | error h =>
    rw [result] at both
    cases result' : ruleOf c' name value with
    | ok rule' =>
      rw [result'] at both
      exact both.elim
    | error h' =>
      rw [result'] at both
      obtain ⟨rfl, unplaced⟩ | ⟨x, e, rfl, rfl⟩ := both
      · cases h' with
        | error e => simp only [settle, show e.diagnosis? = none from unplaced]
        | range fault => rfl
        | endless => rfl
      · obtain ⟨e', eq, placeless⟩ | ⟨i, e', low, high, -, eq, -⟩ :=
          ruleOf_error at_ offset part result
        · unfold Context.errorAt at eq
          split at eq
          · cases eq
          · cases eq
            cases placeless.nowhere
        · have inside : i ≤ l.length := by omega
          obtain ⟨there, rfl⟩ := eq_offset_of_errorAt at_ inside eq
          obtain rfl : x = i := by
            simp only [Context.from, Context.offset] at there
            omega
          rw [show c.from i = c.offset i from rfl, show c'.from i = c'.offset i from rfl,
            settle_errorAt at_ inside, settle_errorAt at_' inside]

/-- A line comes to the same wherever it stands, but for tags. -/
theorem shape_outcome (alike : c.Alike c') (at_ : c.At l) (at_' : c'.At l) :
    (outcome c' l).shape = (outcome c l).shape := by
  cases isComment : comment.recognises l with
  | true =>
    obtain ⟨t, built, -⟩ := descend_comment isComment
    rw [outcome_comment c isComment built, outcome_comment c' isComment built]
  | false =>
    cases isEntry : ruleEntry.recognises l with
    | true =>
      obtain ⟨t, n, v, built, -, parts⟩ := descend_definition isEntry
      rw [outcome_definition c isEntry built parts.name_part parts.value_part,
        outcome_definition c' isEntry built parts.name_part parts.value_part]
      exact shape_settle alike at_ at_' parts
    | false => rw [outcome_other c isComment isEntry, outcome_other c' isComment isEntry]

/-! ### Where a line fails -/

/-- What is known of the error of a definition that fails at a place of its line: the error lies in its
    value, and if it is the fault of a literal the literal is the first that has one, or the error
    has no place of its own, and the place is that of the name. -/
def FailsAt (c : Context) (l : Bytes) (name value : Tree) (k : Nat) (e : Error) : Prop :=
  (Placeless e ∧ PartAt l k name.text) ∨
    ofValue e = true ∧ ∀ n, faulty? e = some n →
      Leftmost c l (literals (value.text.length + 1) value.text (c.from value.offset)) k e n

theorem settle_failed (at_ : c.At l) {t : Tree} (parts : DefinitionAt l 0 t name value)
    {cause : Option Error} (failed : settle c name (ruleOf c name value) = .failed k cause) :
    k < l.length ∧ ∃ e, cause = some e ∧ FailsAt c l name value k e := by
  obtain ⟨i, name_offset, name_part, name_some⟩ := parts.name_at
  obtain ⟨j, value_offset, value_part, value_fits⟩ := parts.value_at
  rw [Nat.zero_add] at name_offset value_offset
  cases result : ruleOf c name value with
  | ok rule =>
    rw [result] at failed
    cases failed
  | error h =>
    rw [result] at failed
    obtain ⟨e, rfl, placeless⟩ | ⟨x, e, low, high, own, rfl, first⟩ :=
      ruleOf_error at_ value_offset value_part result
    · rw [settle_placeless placeless name_offset] at failed
      cases failed
      refine ⟨?_, e, rfl, .inl ⟨placeless, name_part⟩⟩
      have := name_part.fits
      have := List.length_pos_iff.2 name_some
      omega
    · rw [settle_errorAt at_ (by omega)] at failed
      cases failed
      refine ⟨by omega, e, rfl, .inr ⟨own, ?_⟩⟩
      rw [value_offset]
      exact first

/-- A line that is no comment and no definition fails where its blanks end. -/
theorem remainder_failed {cause : Option Error} (failed : remainder l = .failed k cause) :
    k < l.length ∧ k = (blanks l).length ∧ cause = none := by
  unfold remainder at failed
  split at failed
  · cases failed
  · rename_i some_char
    cases failed
    exact ⟨length_blanks_lt (Bool.eq_false_iff.2 some_char), rfl, rfl⟩

/-- A line fails inside of itself. -/
theorem failed_lt (at_ : c.At l) {cause : Option Error} (failed : outcome c l = .failed k cause) :
    k < l.length := by
  cases isComment : comment.recognises l with
  | true =>
    obtain ⟨t, built, -⟩ := descend_comment isComment
    rw [outcome_comment c isComment built] at failed
    cases failed
  | false =>
    cases isEntry : ruleEntry.recognises l with
    | true =>
      obtain ⟨t, n, v, built, -, parts⟩ := descend_definition isEntry
      rw [outcome_definition c isEntry built parts.name_part parts.value_part] at failed
      exact (settle_failed at_ parts failed).1
    | false =>
      rw [outcome_other c isComment isEntry] at failed
      exact (remainder_failed failed).1

end Definition

end Rulebook

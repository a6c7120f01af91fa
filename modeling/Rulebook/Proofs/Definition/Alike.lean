import Rulebook.Proofs.Definition.Literals
import Rulebook.Proofs.Rule.Shape

/-!
# Reading a value elsewhere

What a value is read as depends on the shapes of the rules in the registry and on nothing else: not on
where the line stands, and not on tags. Neither does what goes wrong with it, nor where in the line:
`Definition.alike_readValue`.
-/

namespace Rulebook

open Bytes

/-- An entry with the tags of its rule forgotten. -/
def Entry.shape (e : Entry Rule) : Entry Rule := ⟨e.name, e.rule.shape⟩

namespace Definition

open Rule (shapes shapes_eq_map)

/-- True of contexts that differ only in tags, and in where their lines start. -/
structure Context.Alike (c c' : Context) : Prop where
  grammar : c.grammar = .bootstrap
  grammar' : c'.grammar = .bootstrap
  registry : c'.registry.shape = c.registry.shape

/-- An offset from the start of a context's line. -/
def Context.from (c : Context) (x : Int) : Int := c.marker.position.offset + x

theorem Context.from_add (c : Context) (x y : Int) : c.from x + y = c.from (x + y) := by
  simp only [Context.from]
  omega

/-- True of what ends a compilation without telling where. -/
def Halt.Unplaced : Halt → Prop
  | .error e => e.diagnosis? = none
  | _ => True

/-- Two results that are the same after `f`, or two errors of the same kind at the same place of their
    lines. -/
def Alike {α γ : Type} (c c' : Context) (f : α → γ) : Except Halt α → Except Halt α → Prop
  | .ok a, .ok b => f b = f a
  | .error h, .error h' =>
      (h' = h ∧ h.Unplaced) ∨
        ∃ x e, h = c.errorAt (c.from x) e ∧ h' = c'.errorAt (c'.from x) e
  | _, _ => False

variable {α β γ δ : Type} {c c' : Context} {f : α → γ} {g : β → δ}

theorem alike_errorAt (x : Int) (e : Error) :
    Alike c c' f (.error (c.errorAt (c.from x) e)) (.error (c'.errorAt (c'.from x) e)) :=
  .inr ⟨x, e, rfl, rfl⟩

/-- One part after another. -/
theorem Alike.bind {result result' : Except Halt α} (h : Alike c c' f result result')
    {next next' : α → Except Halt β} (h' : ∀ a b, f b = f a → Alike c c' g (next a) (next' b)) :
    Alike c c' g (result >>= next) (result' >>= next') := by
  cases result with
  | ok a =>
    cases result' with
    | ok b => exact h' a b h
    | error halt' => exact h.elim
  | error halt =>
    cases result' with
    | ok b => exact h.elim
    | error halt' => exact h

/-! ### Combinations -/

theorem toEntries_shape (entries : List (Entry Rule)) :
    Item.toEntries ((shapes entries).map Item.ofEntry) =
      (Item.toEntries (entries.map Item.ofEntry)).map shapes := by
  induction entries with
  | nil => rfl
  | cons e rest ih =>
    simp only [shapes, List.map_cons, Item.toEntries, Item.ofEntry, Item.toEntry] at ih ⊢
    by_cases valid : (e.name.isEmpty || isValidName e.name) = true
    · simp only [if_pos valid, ih]
      cases Item.toEntries (rest.map Item.ofEntry) <;> rfl
    · simp only [if_neg valid]
      rfl

/-- What a combination comes to if all tags are forgotten. -/
theorem map_shape_combine (c : Context) (how : Combinator) (entries : List (Entry Rule)) :
    (combine c how entries).map Rule.shape =
      lift (Rule.ofItems 0 how ((shapes entries).map Item.ofEntry)) := by
  unfold combine Rule.ofItems Rule.build
  rw [show (how.code : Int) = ((Kind.combine how).code : Int) from rfl, Kind.ofCode?_code]
  dsimp only [Rule.combineItems]
  rw [toEntries_shape]
  cases entries with
  | nil => rfl
  | cons e rest =>
    cases Item.toEntries ((e :: rest).map Item.ofEntry) <;> rfl

theorem alike_combine (c c' : Context) (how : Combinator) {entries entries' : List (Entry Rule)}
    (same : entries'.map Entry.shape = entries.map Entry.shape) :
    Alike c c' Rule.shape (combine c how entries) (combine c' how entries') := by
  have shapes' : shapes entries' = shapes entries := by
    rw [shapes_eq_map, shapes_eq_map]
    exact same
  have results := (map_shape_combine c' how entries').trans
    (shapes' ▸ (map_shape_combine c how entries).symm)
  cases result : combine c how entries with
  | ok r =>
    cases result' : combine c' how entries' with
    | ok r' =>
      rw [result, result'] at results
      exact Except.ok.inj results
    | error halt' =>
      rw [result, result'] at results
      cases results
  | error halt =>
    cases result' : combine c' how entries' with
    | ok r' =>
      rw [result, result'] at results
      cases results
    | error halt' =>
      rw [result, result'] at results
      obtain ⟨code, reason, rfl⟩ := combine_eq_error result
      exact .inl ⟨Except.error.inj results, rfl⟩

/-- Trees one after another. -/
theorem alike_mapM {trees : List Tree} {read read' : Tree → Except Halt β}
    (h : ∀ t ∈ trees, Alike c c' g (read t) (read' t)) :
    Alike c c' (List.map g)
      ((trees.map .ok).mapM fun result => do
        let node ← lift result
        read node)
      ((trees.map .ok).mapM fun result => do
        let node ← lift result
        read' node) := by
  induction trees with
  | nil => rfl
  | cons t rest ih =>
    obtain ⟨here, others⟩ := List.forall_mem_cons.1 h
    rw [List.map_cons, List.mapM_cons, List.mapM_cons]
    refine Alike.bind here fun b b' same => (ih others).bind fun bs bs' sames => ?_
    change (b' :: bs').map g = (b :: bs).map g
    rw [List.map_cons, List.map_cons, same, sames]

/-! ### Tokens -/

theorem alike_readLiteral (alike : c.Alike c') (x : Int) (t : Tree) :
    Alike c c' Entry.shape (readLiteral c (c.from x) t) (readLiteral c' (c'.from x) t) := by
  unfold readLiteral
  simp only [Context.from_add]
  split
  · split
    · exact alike_errorAt ..
    · rfl
  · split
    · split
      · exact .inl ⟨rfl, trivial⟩
      · rfl
    · split
      · exact alike_errorAt ..
      · rename_i bare _
        have accepts : c'.grammar.name.accepts bare.text = c.grammar.name.accepts bare.text := by
          rw [alike.grammar, alike.grammar']
        have known : c.grammar.name.accepts bare.text =
            .ok (Bootstrap.name.recognises bare.text) := by
          rw [alike.grammar]
          exact Bootstrap.accepted_name.accepts_eq bare.text
        have shapes := congrArg (·.get? bare.text) alike.registry
        simp only [Registry.get?_shape] at shapes
        rw [accepts, known]
        change Alike c c' Entry.shape (if _ then _ else _) (if _ then _ else _)
        split
        · simp only [Registry.get]
          cases rule : c.registry.get? bare.text with
          | none =>
            rw [rule] at shapes
            rw [Option.map_eq_none_iff.1 shapes]
            exact alike_errorAt ..
          | some r =>
            rw [rule] at shapes
            obtain ⟨r', rule', same⟩ := Option.map_eq_some_iff.1 shapes
            rw [rule']
            change Entry.mk bare.text r'.shape = Entry.mk bare.text r.shape
            rw [same]
        · rfl

/-- True of readers that read a text alike wherever it stands. -/
def ReadsAlike (c c' : Context) (read read' : TokenReader) : Prop :=
  ∀ text x, Alike c c' (List.map Entry.shape) (read text (c.from x)) (read' text (c'.from x))

section

variable {read read' : TokenReader}

theorem alike_readAlternative (reads : ReadsAlike c c' read read') (x : Int) (t : Tree) :
    Alike c c' (Option.map Rule.shape) (readAlternative c read (c.from x) t)
      (readAlternative c' read' (c'.from x) t) := by
  unfold readAlternative
  simp only [Context.from_add]
  split
  · rfl
  · refine (reads _ _).bind fun tokens tokens' same => ?_
    have several : Alike c c' (Option.map Rule.shape)
        (do
          let rule ← combine c .seq (tokens.map fun e => ⟨[], e.rule⟩)
          pure (some rule))
        (do
          let rule ← combine c' .seq (tokens'.map fun e => ⟨[], e.rule⟩)
          pure (some rule)) := by
      refine (alike_combine c c' .seq ?_).bind fun r r' same => ?_
      · have sames := congrArg (List.map fun e : Entry Rule => (⟨[], e.rule⟩ : Entry Rule)) same
        simp only [List.map_map] at sames ⊢
        exact sames
      · change some r'.shape = some r.shape
        rw [same]
    match tokens, tokens', same with
    | [e], [e'], same =>
      change some e'.rule.shape = some e.rule.shape
      exact congrArg (fun e : Entry Rule => some e.rule) (List.head_eq_of_cons_eq same)
    | [], [], _ => exact several
    | _ :: _ :: _, _ :: _ :: _, _ => exact several
    | [_], _ :: _ :: _, same => cases congrArg List.length same
    | _ :: _ :: _, [_], same => cases congrArg List.length same

theorem alike_readGroup (alike : c.Alike c') (reads : ReadsAlike c c' read read') (x : Int)
    (t : Tree) :
    Alike c c' Rule.shape (readGroup c read (c.from x) t) (readGroup c' read' (c'.from x) t) := by
  unfold readGroup
  simp only [Context.from_add]
  split
  · exact alike_errorAt ..
  · rename_i alternatives _
    have trees : Grammar.bootstrap.alternative.trees alternatives.text =
        (Bootstrap.alternative.nodes alternatives.text).map .ok :=
      Bootstrap.ready_alternative.trees_eq alternatives.text
    rw [alike.grammar, alike.grammar', trees]
    refine (alike_mapM fun t _ => alike_readAlternative reads _ t).bind fun rules rules' same => ?_
    refine alike_combine c c' .oneOf ?_
    have sames := congrArg (fun shapes => (List.filterMap id shapes).map fun r => (⟨[], r⟩ : Entry Rule)) same
    simpa [List.filterMap_map, Entry.shape, Function.comp_def, List.map_filterMap] using sames

theorem alike_readToken (alike : c.Alike c') (reads : ReadsAlike c c' read read') (x : Int)
    (t : Tree) :
    Alike c c' Entry.shape (readToken c read (c.from x) t) (readToken c' read' (c'.from x) t) := by
  have atom_ : Alike c c' Entry.shape (readAtom c read (c.from x) t)
      (readAtom c' read' (c'.from x) t) := by
    unfold readAtom
    simp only [Context.from_add]
    split
    · exact alike_errorAt ..
    · split
      · refine (alike_readGroup alike reads _ _).bind fun r r' same => ?_
        exact congrArg (Entry.mk []) same
      · split
        · exact alike_readLiteral alike ..
        · exact alike_errorAt ..
  unfold readToken
  refine atom_.bind fun e e' same => ?_
  simp only [Context.from_add]
  split
  · exact same
  · split
    · exact same
    · split
      · exact alike_errorAt ..
      · refine (alike_combine c c' _ ?_).bind fun r r' rules => ?_
        · exact congrArg (fun e : Entry Rule => [(⟨[], e.rule⟩ : Entry Rule)]) same
        · have name : e'.shape.name = e.shape.name := by rw [same]
          change Entry.mk e'.shape.name r'.shape = Entry.mk e.shape.name r.shape
          rw [rules, name]

end

theorem alike_readTokens (alike : c.Alike c') (depth : Nat) :
    ReadsAlike c c' (readTokens c depth) (readTokens c' depth) := by
  induction depth with
  | zero => exact fun _ _ => .inl ⟨rfl, trivial⟩
  | succ depth ih =>
    intro text x
    have trees : Grammar.bootstrap.token.trees text = (Bootstrap.token.nodes text).map .ok :=
      Bootstrap.ready_token.trees_eq text
    rw [readTokens, readTokens, alike.grammar, alike.grammar', trees]
    exact alike_mapM fun t _ => alike_readToken alike ih x t

/-- A value is read alike wherever it stands. -/
theorem alike_readValue (alike : c.Alike c') (text : Bytes) (x : Int) :
    Alike c c' Rule.shape (readValue c text (c.from x)) (readValue c' text (c'.from x)) :=
  (alike_readTokens alike _ text x).bind fun _ _ same => alike_combine c c' .seq same

end Definition

end Rulebook

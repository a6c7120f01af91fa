import Rulebook.Definition.Compile
import Rulebook.Proofs.Tree.Arrangement

/-!
# References

The named entries of a definition's rule are what the definition refers to outside of groups, in its
order: `Definition.forall₂_references`. What stands in a group has no name, and a reference with a
suffix is one entry around the rule that it repeats.
-/

namespace Rulebook

theorem Except.bind_eq_ok {ε α β : Type} {x : Except ε α} {f : α → Except ε β} {b : β} :
    (x >>= f) = .ok b ↔ ∃ a, x = .ok a ∧ f a = .ok b := by
  cases x with
  | error e => simp [bind, Except.bind]
  | ok a => simp [bind, Except.bind]

theorem Except.forall₂_of_mapM {ε α β : Type} {f : α → Except ε β} {xs : List α} {ys : List β}
    (h : xs.mapM f = .ok ys) : List.Forall₂ (fun x y => f x = .ok y) xs ys := by
  induction xs generalizing ys with
  | nil =>
    cases h
    exact .nil
  | cons x xs ih =>
    rw [List.mapM_cons, bind_eq_ok] at h
    obtain ⟨y, here, h⟩ := h
    obtain ⟨zs, others, h⟩ := bind_eq_ok.1 h
    cases h
    exact .cons here (ih others)

namespace Definition

theorem lift_eq_ok {α : Type} {x : Except Error α} {a : α} : lift x = .ok a ↔ x = .ok a := by
  cases x <;> simp [lift]

/-! ### Combinations -/

theorem toEntries_ofEntry {entries entries' : List (Entry Rule)}
    (h : Item.toEntries (entries.map Item.ofEntry) = .ok entries') : entries' = entries := by
  induction entries generalizing entries' with
  | nil =>
    cases h
    rfl
  | cons e rest ih =>
    rw [List.map_cons, Item.toEntries, Item.ofEntry, Item.toEntry] at h
    split at h
    · cases h
    · rename_i e' here
      split at here
      · cases here
        split at h
        · cases h
        · rename_i es others
          cases h
          rw [ih others]
      · cases here

/-- A combination that can be built is a combination of its entries. -/
theorem combine_eq_ok {c : Context} {how : Combinator} {entries : List (Entry Rule)} {r : Rule}
    (h : combine c how entries = .ok r) : r = .combine c.tag how entries := by
  rw [combine, lift_eq_ok, Rule.ofItems, Rule.build] at h
  rw [show (how.code : Int) = ((Kind.combine how).code : Int) from rfl, Kind.ofCode?_code] at h
  simp only [Rule.combineItems] at h
  split at h
  · cases h
  · rename_i r' built
    cases h
    split at built
    · cases built
    · split at built
      · cases built
      · rename_i entries' same
        cases built
        rw [toEntries_ofEntry same]

/-! ### Tokens -/

/-- The tokens of a text, in order. -/
def Grammar.tokens (g : Grammar) (text : Bytes) : List Tree :=
  (g.token.trees text).filterMap Except.toOption

/-- The name that a literal refers to, if it is neither a text nor a pattern, and its bare text is
    the name of a rule. -/
def Grammar.named? (g : Grammar) (literal : Tree) : Option Bytes :=
  if (literal.child? "text").isSome || (literal.child? "pattern").isSome then none
  else
    (literal.child? "bare").bind fun bare =>
      if bare.text ≠ [] ∧ (g.name.accepts bare.text).toOption = some true then some bare.text
      else none

/-- The name that a token refers to, if it is a reference and not a group. -/
def Grammar.reference? (g : Grammar) (token : Tree) : Option Bytes :=
  (token.child? "atom").bind fun atom =>
    if (atom.child? "group").isSome then none else (atom.child? "literal").bind g.named?

/-- True of a token that ends with a suffix. -/
def IsSuffixed (token : Tree) : Prop :=
  ∃ suffix, token.child? "suffix" = some suffix ∧ suffix.text ≠ []

/-- A literal has a name exactly if it is a reference, and the name is that of the reference. -/
theorem name_readLiteral {c : Context} {base : Int} {literal : Tree} {e : Entry Rule}
    (h : readLiteral c base literal = .ok e) : e.name = (c.grammar.named? literal).getD [] := by
  unfold readLiteral at h
  unfold Grammar.named?
  split at h
  · rename_i text here
    rw [here]
    split at h
    · cases h
    · cases h
      rfl
  · rename_i noText
    split at h
    · rename_i pattern here
      rw [noText, here]
      split at h
      · cases h
      · cases h
        rfl
    · rename_i noPattern
      split at h
      · cases h
      · rename_i bare here
        rw [noText, noPattern, here]
        obtain ⟨isName, asked, h⟩ := Except.bind_eq_ok.1 h
        rw [lift_eq_ok] at asked
        simp only [Option.isSome_none, Bool.or_self, Bool.false_eq_true, if_false, Option.bind_some,
          asked, Except.toOption, Option.some.injEq]
        split at h
        · rename_i yes
          split at h
          · cases h
          · cases h
            split
            · rfl
            · rename_i other
              simpa [yes] using other
        · rename_i no
          cases h
          simp [no]

theorem name_readAtom {c : Context} {read : TokenReader} {base : Int} {token : Tree}
    {e : Entry Rule} (h : readAtom c read base token = .ok e) :
    e.name = (c.grammar.reference? token).getD [] := by
  unfold readAtom at h
  unfold Grammar.reference?
  split at h
  · cases h
  · rename_i atom here
    rw [here]
    split at h
    · rename_i group here
      obtain ⟨rule, -, h⟩ := Except.bind_eq_ok.1 h
      cases h
      simp [here]
    · rename_i noGroup
      split at h
      · rename_i literal here
        rw [name_readLiteral h]
        simp [noGroup, here]
      · cases h

/-- What is known of the entry for a token: it has a name exactly if the token is a reference, and
    the rule of a reference with a suffix has no named entries. -/
structure EntryFor (g : Grammar) (token : Tree) (e : Entry Rule) : Prop where
  name : e.name = (g.reference? token).getD []
  suffixed : IsSuffixed token → e.rule.entries.filter Entry.isNamed = []

theorem entryFor_readToken {c : Context} {read : TokenReader} {base : Int} {token : Tree}
    {e : Entry Rule} (h : readToken c read base token = .ok e) : EntryFor c.grammar token e := by
  obtain ⟨atom, atomRead, h⟩ := Except.bind_eq_ok.1 h
  have name := name_readAtom atomRead
  split at h
  · rename_i noSuffix
    cases h
    refine ⟨name, fun ⟨suffix, here, _⟩ => ?_⟩
    rw [noSuffix] at here
    cases here
  · rename_i suffix here
    split at h
    · rename_i empty
      cases h
      refine ⟨name, fun ⟨suffix', here', nonempty⟩ => ?_⟩
      cases here.symm.trans here'
      exact absurd (List.isEmpty_iff.1 empty) nonempty
    · split at h
      · cases h
      · rename_i how _
        obtain ⟨rule, built, h⟩ := Except.bind_eq_ok.1 h
        cases h
        rw [combine_eq_ok built]
        exact ⟨name, fun _ => rfl⟩

theorem entryFor_readTokens {c : Context} {depth : Nat} {text : Bytes} {base : Int}
    {entries : List (Entry Rule)} (h : readTokens c depth text base = .ok entries) :
    List.Forall₂ (EntryFor c.grammar) (c.grammar.tokens text) entries := by
  cases depth with
  | zero => cases h
  | succ depth =>
    rw [readTokens] at h
    replace h := Except.forall₂_of_mapM h
    unfold Grammar.tokens
    generalize c.grammar.token.trees text = results at h
    induction h with
    | nil => exact .nil
    | @cons result e results entries here _ ih =>
      obtain ⟨token, read, here⟩ := Except.bind_eq_ok.1 here
      rw [lift_eq_ok] at read
      rw [read]
      exact .cons (entryFor_readToken here) ih

theorem readValue_eq_ok {c : Context} {text : Bytes} {base : Int} {r : Rule}
    (h : readValue c text base = .ok r) :
    ∃ entries, r = .combine c.tag .seq entries ∧
      List.Forall₂ (EntryFor c.grammar) (c.grammar.tokens text) entries := by
  obtain ⟨entries, read, h⟩ := Except.bind_eq_ok.1 h
  exact ⟨entries, combine_eq_ok h, entryFor_readTokens read⟩

theorem define_eq_ok {settings : Settings} {s : State} {node name value : Tree} {r : Rule}
    {registry : Registry} (h : define settings s node name value = .ok (r, registry)) :
    ∃ entries tag, r = .combine tag .seq entries ∧
      List.Forall₂ (EntryFor settings.grammar) (settings.grammar.tokens value.text) entries := by
  obtain ⟨r', read, h⟩ := Except.bind_eq_ok.1 h
  obtain ⟨compiled, _, h⟩ := Except.bind_eq_ok.1 h
  obtain ⟨registry', _, h⟩ := Except.bind_eq_ok.1 h
  cases h
  obtain ⟨entries, rfl, each⟩ := readValue_eq_ok read
  exact ⟨entries, _, rfl, each⟩

/-- The references of a text outside of groups, in order. -/
def Grammar.references (g : Grammar) (text : Bytes) : List Tree :=
  (g.tokens text).filter fun token => (g.reference? token).isSome

theorem reference?_ne_nil {g : Grammar} {token : Tree} {name : Bytes}
    (h : g.reference? token = some name) : name ≠ [] := by
  obtain ⟨atom, -, h⟩ := Option.bind_eq_some_iff.1 h
  split at h
  · cases h
  · obtain ⟨literal, -, h⟩ := Option.bind_eq_some_iff.1 h
    unfold Grammar.named? at h
    split at h
    · cases h
    · obtain ⟨bare, -, h⟩ := Option.bind_eq_some_iff.1 h
      split at h
      · rename_i isName
        cases h
        exact isName.1
      · cases h

/-- The named entries are those of the references. -/
theorem forall₂_references {g : Grammar} {text : Bytes} {entries : List (Entry Rule)}
    (h : List.Forall₂ (EntryFor g) (g.tokens text) entries) :
    List.Forall₂ (fun token e => g.reference? token = some e.name ∧ EntryFor g token e)
      (g.references text) (entries.filter Entry.isNamed) := by
  unfold Grammar.references
  generalize g.tokens text = tokens at h
  induction h with
  | nil => exact .nil
  | @cons token e tokens entries here _ ih =>
    cases found : g.reference? token with
    | none =>
      have anonymous : e.isNamed = false := by simp [Entry.isNamed, here.name, found]
      rw [List.filter_cons_of_neg (by simp [found]), List.filter_cons_of_neg (by simp [anonymous])]
      exact ih
    | some name =>
      have same : e.name = name := by simp [here.name, found]
      have isNamed : e.isNamed = true := by simpa [Entry.isNamed, same] using reference?_ne_nil found
      rw [List.filter_cons_of_pos (by simp [found]), List.filter_cons_of_pos isNamed]
      exact .cons ⟨found.trans (congrArg some same.symm), here⟩ ih

end Definition

namespace Rule

theorem forall₂_trans {α β γ : Type} {R : α → β → Prop} {S : β → γ → Prop} {T : α → γ → Prop}
    {as : List α} {bs : List β} {cs : List γ} (h : List.Forall₂ R as bs) (h' : List.Forall₂ S bs cs)
    (step : ∀ {a b c}, R a b → S b c → T a c) : List.Forall₂ T as cs := by
  induction h generalizing cs with
  | nil =>
    cases h'
    exact .nil
  | cons here _ ih =>
    obtain _ | ⟨there, others⟩ := h'
    exact .cons (step here there) (ih others)

end Rule

end Rulebook

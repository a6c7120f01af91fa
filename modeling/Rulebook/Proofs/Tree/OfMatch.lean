import Rulebook.Proofs.Rule.Acceptance
import Rulebook.Tree.OfMatch

/-!
# Errors of trees

The tree of a match has no errors of its own: whatever goes wrong is that the rule, or the rule of
one of its named entries, is refused by the matcher. `Rule.Sound.trees_error` says of a rule that is
accepted that nothing but the size of the pattern of an entry can go wrong.
-/

namespace Rulebook

namespace Rule

/-- True if an error is that of the rule of a named entry. -/
def ErrorBelow (e : Error) (entries : List (Entry Rule)) : Prop :=
  ∃ d ∈ reach entries, d.isNamed = true ∧ d.rule.compile = .error e

theorem ErrorBelow.cons {e : Error} {name : Bytes} {r : Rule} {rest : List (Entry Rule)}
    (h : (r.compile = .error e ∧ name ≠ []) ∨ ErrorBelow e r.entries ∨ ErrorBelow e rest) :
    ErrorBelow e (⟨name, r⟩ :: rest) := by
  unfold ErrorBelow
  rw [reach_cons]
  obtain ⟨here, isNamed⟩ | ⟨d, mem, found⟩ | ⟨d, mem, found⟩ := h
  · exact ⟨⟨name, r⟩, by simp, by simpa [Entry.isNamed] using isNamed, here⟩
  · exact ⟨d, by simp [mem], found⟩
  · exact ⟨d, by simp [mem], found⟩

theorem descend_eq (r : Rule) (span : Bytes) (offset : Nat) :
    r.matcher.descend span offset =
      Matcher.spanNode
        (fun regex found => Matcher.partsFor regex found span offset (matchers r.entries))
        r.compile span offset := by
  cases r <;> simp [matcher, Matcher.descend, Thunk.get, entries, matchers]

theorem nodeFor_error {parts : Matcher.Parts} {regex : Pattern.Regex} {text : Bytes} {base : Nat}
    {found : Pattern.Program.Found} {e : Error}
    (h : Matcher.nodeFor parts regex text base found = .error e) : parts regex found = .error e := by
  unfold Matcher.nodeFor at h
  split at h
  · cases h
    assumption
  · cases h

theorem spanNode_error {parts : Matcher.Parts} {compiled : Except Error Compiled} {span : Bytes}
    {offset : Nat} {e : Error} (h : Matcher.spanNode parts compiled span offset = .error e) :
    compiled = .error e ∨ ∃ pattern found, parts pattern found = .error e := by
  unfold Matcher.spanNode at h
  split at h
  · cases h
    exact .inl rfl
  · split at h
    · cases h
    · exact .inr ⟨_, _, nodeFor_error h⟩

mutual

theorem descend_error : ∀ (r : Rule) {span : Bytes} {offset : Nat} {e : Error},
    r.matcher.descend span offset = .error e → r.compile = .error e ∨ ErrorBelow e r.entries
  | regex tag source, span, offset, e, h => by
      obtain here | ⟨_, _, below⟩ := spanNode_error ((descend_eq _ _ _).symm.trans h)
      · exact .inl here
      · simp [entries, matchers, Matcher.partsFor] at below
  | text tag literal, span, offset, e, h => by
      obtain here | ⟨_, _, below⟩ := spanNode_error ((descend_eq _ _ _).symm.trans h)
      · exact .inl here
      · simp [entries, matchers, Matcher.partsFor] at below
  | combine tag how entries, span, offset, e, h => by
      obtain here | ⟨_, _, below⟩ := spanNode_error ((descend_eq _ _ _).symm.trans h)
      · exact .inl here
      · exact .inr (partsFor_error entries below)

theorem partsFor_error : ∀ (entries : List (Entry Rule)) {pattern : Pattern.Regex}
    {found : Pattern.Program.Found} {text : Bytes} {base : Nat} {e : Error},
    Matcher.partsFor pattern found text base (matchers entries) = .error e → ErrorBelow e entries
  | [], _, _, _, _, _, h => by simp [matchers, Matcher.partsFor] at h
  | ⟨name, r⟩ :: rest, _, _, _, _, e, h => by
      rw [matchers] at h
      split at h
      · rename_i isNamed
        rw [Matcher.partsFor] at h
        split at h
        · exact .cons (.inr (.inr (partsFor_error rest h)))
        · split at h
          · cases h
            rename_i failed
            obtain here | below := descend_error r failed
            · exact .cons (.inl ⟨here, by simpa [Entry.isNamed] using isNamed⟩)
            · exact .cons (.inr (.inl below))
          · split at h
            · cases h
              exact .cons (.inr (.inr (partsFor_error rest ‹_›)))
            · cases h
      · exact .cons (.inr (.inr (partsFor_error rest h)))

end

theorem treesFor_error {r : Rule} {regex : Pattern.Regex} {text : Bytes}
    {founds : List Pattern.Program.Found} {e : Error}
    (h : .error e ∈ r.matcher.treesFor regex text founds) : ErrorBelow e r.entries := by
  induction founds with
  | nil => simp [Matcher.treesFor] at h
  | cons found rest ih =>
    rw [Matcher.treesFor] at h
    split at h
    · rename_i failed
      cases List.mem_singleton.1 h
      have := nodeFor_error failed
      rw [entries_matcher] at this
      exact partsFor_error _ this
    · obtain h | h := List.mem_cons.1 h
      · cases h
      · exact ih h

/-- An error among the trees of a rule that is accepted is that of a named entry. -/
theorem trees_error {r : Rule} (accepted : Accepted r) {text : Bytes} {e : Error}
    (h : .error e ∈ r.trees text) : ErrorBelow e r.entries := by
  obtain ⟨c, compiled⟩ := accepted
  rw [trees, Matcher.trees, compiled_matcher, compiled] at h
  exact treesFor_error h

theorem TooLarge.of_error {r : Rule} {e : Error} (h : Accepted r ∨ TooLarge r)
    (failed : r.compile = .error e) :
    ∃ p, e = .rejected p (.fault ⟨.tooLarge, p⟩) := by
  obtain ⟨c, ok⟩ | ⟨p, -, large⟩ := h
  · rw [ok] at failed
    cases failed
  · rw [large] at failed
    cases failed
    exact ⟨p, rfl⟩

/-- Nothing goes wrong with the trees of a rule that is accepted, except that the pattern of a named
    entry may be too large. -/
theorem Sound.trees_error {r : Rule} (sound : Sound r) (accepted : Accepted r) {text : Bytes}
    {e : Error} (h : .error e ∈ r.trees text) :
    ∃ p, e = .rejected p (.fault ⟨.tooLarge, p⟩) := by
  obtain ⟨d, mem, isNamed, failed⟩ := Rule.trees_error accepted h
  exact TooLarge.of_error (sound.entry_accepted accepted mem isNamed) failed

end Rule

end Rulebook

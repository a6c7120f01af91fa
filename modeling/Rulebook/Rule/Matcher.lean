import Rulebook.Rule.Compile

/-!
# Matchers

A matcher is a rule made ready to be matched many times: it holds the compiled patterns of the rule
and of the rules of its named entries, each compiled when it is first needed and then kept.
-/

namespace Rulebook

/-- A rule that is compiled once, with its named entries. -/
inductive Matcher where
  | mk (compiled : Thunk (Except Error Compiled)) (entries : List (Entry Matcher))

namespace Matcher

/-- The compiled patterns. -/
def compiled : Matcher → Except Error Compiled
  | mk compiled _ => compiled.get

/-- The matchers of the named entries, in order. -/
def entries : Matcher → List (Entry Matcher)
  | mk _ entries => entries

/-- Whether the rule matches the whole of a text. -/
def accepts (m : Matcher) (text : Bytes) : Except Error Bool :=
  match m.compiled with
  | .error e => .error e
  | .ok c => .ok (c.whole.occursIn text)

end Matcher

namespace Rule

mutual

/-- The matcher of a rule. -/
def matcher : Rule → Matcher
  | regex tag source => .mk (Thunk.mk fun _ => compile (regex tag source)) []
  | text tag literal => .mk (Thunk.mk fun _ => compile (text tag literal)) []
  | combine tag how entries =>
      .mk (Thunk.mk fun _ => compile (combine tag how entries)) (matchers entries)

/-- The matchers of the entries that have a name. -/
def matchers : List (Entry Rule) → List (Entry Matcher)
  | [] => []
  | e :: rest =>
      if e.isNamed then ⟨e.name, e.rule.matcher⟩ :: matchers rest else matchers rest

end

theorem compiled_matcher (r : Rule) : r.matcher.compiled = r.compile := by
  cases r <;> rfl

theorem entries_matcher (r : Rule) : r.matcher.entries = matchers r.entries := by
  cases r <;> rfl

/-- Whether a rule matches the whole of a text. -/
def accepts (r : Rule) (text : Bytes) : Except Error Bool := r.matcher.accepts text

end Rule

end Rulebook

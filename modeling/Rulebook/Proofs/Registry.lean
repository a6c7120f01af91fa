import Mathlib.Data.List.Nodup
import Rulebook.Registry
import Rulebook.Rule.Build

/-!
# Registries that are built

A registry is built by setting rules and merging registries, and a rule from leaves by combining
items. Its names are then valid and each stands for one rule, and no rule is empty. A copy of a
registry is the registry itself.
-/

namespace Rulebook

/-- True of a rule that is built from leaves by combining items. -/
inductive Rule.Built : Rule → Prop where
  | regex (tag : Nat) (source : Bytes) : Built (.regex tag source)
  | text (tag : Nat) (literal : Bytes) : Built (.text tag literal)
  | combine {tag : Nat} {how : Combinator} {items : List Item} {rule : Rule}
      (parts : ∀ item ∈ items, ∀ name part, item = .entry name (some part) → Built part)
      (combined : Rule.combineItems tag how items = .ok rule) : Built rule

/-- True of a registry that is built by setting rules and merging registries. -/
inductive Registry.Built : Registry → Prop where
  | empty : Built .empty
  | set {r r' : Registry} {name : Bytes} {rule : Rule} (base : Built r) (built : rule.Built)
      (done : r.set name (some rule) = .ok r') : Built r'
  | merge {r other : Registry} (base : Built r) (others : Built other) : Built (r.merge other)

/-! ### Rules -/

namespace Rule

theorem mem_toEntries {items : List Item} {entries : List (Entry Rule)}
    (h : Item.toEntries items = .ok entries) {e : Entry Rule} (mem : e ∈ entries) :
    .entry e.name (some e.rule) ∈ items ∧ (e.name = [] ∨ isValidName e.name = true) := by
  induction items generalizing entries with
  | nil =>
    cases h
    cases mem
  | cons item items ih =>
    rw [Item.toEntries] at h
    cases here : item.toEntry with
    | error reason => simp [here] at h
    | ok d =>
      cases others : Item.toEntries items with
      | error reason => simp [here, others] at h
      | ok rest =>
        simp only [here, others, Except.ok.injEq] at h
        subst h
        obtain rfl | mem := List.mem_cons.1 mem
        · cases item with
          | missing => simp [Item.toEntry] at here
          | entry name rule =>
            cases rule with
            | none => simp [Item.toEntry] at here
            | some rule =>
              rw [Item.toEntry] at here
              split at here
              · rename_i valid
                cases here
                exact ⟨List.mem_cons_self .., by simpa using valid⟩
              · cases here
        · exact (ih others mem).imp_left (List.mem_cons_of_mem _)

theorem length_toEntries {items : List Item} {entries : List (Entry Rule)}
    (h : Item.toEntries items = .ok entries) : entries.length = items.length := by
  induction items generalizing entries with
  | nil =>
    cases h
    rfl
  | cons item items ih =>
    rw [Item.toEntries] at h
    cases here : item.toEntry with
    | error reason => simp [here] at h
    | ok d =>
      cases others : Item.toEntries items with
      | error reason => simp [here, others] at h
      | ok rest =>
        simp only [here, others, Except.ok.injEq] at h
        subst h
        simp [ih others]

theorem toEntries_map_ofEntry {entries : List (Entry Rule)}
    (names : ∀ e ∈ entries, e.name = [] ∨ isValidName e.name = true) :
    Item.toEntries (entries.map Item.ofEntry) = .ok entries := by
  induction entries with
  | nil => rfl
  | cons e entries ih =>
    obtain ⟨name, names⟩ := List.forall_mem_cons.1 names
    have here : (Item.ofEntry e).toEntry = .ok e := by
      rw [Item.ofEntry, Item.toEntry, if_pos (by simpa using name)]
    rw [List.map_cons, Item.toEntries, here, ih names]

/-- A combination is built if it has entries, and each of them is built and has a valid name or
    none. -/
theorem built_combine_iff {tag : Nat} {how : Combinator} {entries : List (Entry Rule)} :
    Built (.combine tag how entries) ↔
      entries ≠ [] ∧ ∀ e ∈ entries, e.rule.Built ∧ (e.name = [] ∨ isValidName e.name = true) := by
  constructor
  · intro h
    generalize eq : Rule.combine tag how entries = rule at h
    cases h with
    | regex | text => cases eq
    | @combine tag' how' items _ parts combined =>
      subst eq
      rw [combineItems] at combined
      split at combined
      · cases combined
      · rename_i some_item
        cases read : Item.toEntries items with
        | error reason => simp [read] at combined
        | ok entries' =>
          simp only [read, Except.ok.injEq] at combined
          cases combined
          refine ⟨?_, fun e mem => ?_⟩
          · rintro rfl
            have none : items = [] := List.length_eq_zero_iff.1 (length_toEntries read).symm
            exact some_item (by rw [none]; rfl)
          · obtain ⟨item, name⟩ := mem_toEntries read mem
            exact ⟨parts _ item _ _ rfl, name⟩
  · rintro ⟨some_entry, each⟩
    refine @Built.combine tag how (entries.map Item.ofEntry) _ (fun item mem name part eq => ?_) ?_
    · obtain ⟨e, mem', rfl⟩ := List.mem_map.1 mem
      cases eq
      exact (each e mem').1
    · rw [combineItems, if_neg (by simpa using some_entry),
        toEntries_map_ofEntry fun e mem => (each e mem).2]

end Rule

/-! ### Registries -/

namespace Registry

theorem names_put (e : Entry Rule) (es : List (Entry Rule)) :
    (put e es).map Entry.name =
      if e.name ∈ es.map Entry.name then es.map Entry.name else es.map Entry.name ++ [e.name] := by
  induction es with
  | nil => rfl
  | cons d es ih =>
    rw [put]
    split
    · rename_i same
      simp [beq_iff_eq.1 same]
    · rename_i other
      rw [List.map_cons, ih]
      have : ¬ e.name = d.name := fun same => other (by simp [same])
      by_cases mem : e.name ∈ es.map Entry.name
      · rw [if_pos mem, if_pos (by rw [List.map_cons]; exact List.mem_cons_of_mem _ mem)]
        rfl
      · rw [if_neg mem, if_neg (by rw [List.map_cons, List.mem_cons]; exact not_or.2 ⟨this, mem⟩)]
        rfl

theorem mem_put {e d : Entry Rule} {es : List (Entry Rule)} (mem : d ∈ put e es) :
    d = e ∨ d ∈ es := by
  induction es with
  | nil => exact .inl (List.mem_singleton.1 mem)
  | cons c es ih =>
    rw [put] at mem
    split at mem
    · exact (List.mem_cons.1 mem).imp_right (List.mem_cons_of_mem _)
    · obtain rfl | mem := List.mem_cons.1 mem
      · exact .inr (List.mem_cons_self ..)
      · exact (ih mem).imp_right (List.mem_cons_of_mem _)

theorem mem_of_get? {r : Registry} {name : Bytes} {rule : Rule} (h : r.get? name = some rule) :
    ⟨name, rule⟩ ∈ r.entries := by
  rw [get?, Option.map_eq_some_iff] at h
  obtain ⟨⟨n, _⟩, found, rfl⟩ := h
  obtain rfl : n = name := by simpa using List.find?_some found
  exact List.mem_of_find?_eq_some found

theorem mem_of_nameOf? {r : Registry} {name : Bytes} {rule : Rule} (h : r.nameOf? rule = some name) :
    ⟨name, rule⟩ ∈ r.entries := by
  rw [nameOf?, Option.map_eq_some_iff] at h
  obtain ⟨⟨_, d⟩, found, rfl⟩ := h
  obtain rfl : d = rule := by simpa using List.find?_some found
  exact List.mem_of_find?_eq_some found

/-- True of a registry whose names are valid, each for one rule that is built. -/
structure Orderly (r : Registry) : Prop where
  nodup : r.names.Nodup
  valid : ∀ e ∈ r.entries, isValidName e.name = true
  built : ∀ e ∈ r.entries, e.rule.Built

theorem Orderly.insert {r : Registry} (h : Orderly r) {name : Bytes} {rule : Rule}
    (valid : isValidName name = true) (built : rule.Built) : Orderly (r.insert name rule) where
  nodup := by
    rw [names, Registry.insert, names_put]
    split
    · exact h.nodup
    · rename_i new
      rw [← List.concat_eq_append]
      exact h.nodup.concat new
  valid e mem := (mem_put mem).elim (fun same => same ▸ valid) (h.valid e)
  built e mem := (mem_put mem).elim (fun same => same ▸ built) (h.built e)

theorem Orderly.merge {r other : Registry} (h : Orderly r) (h' : Orderly other) :
    Orderly (r.merge other) := by
  rw [Registry.merge]
  have each : ∀ e ∈ other.entries, isValidName e.name = true ∧ e.rule.Built := fun e mem =>
    ⟨h'.valid e mem, h'.built e mem⟩
  generalize other.entries = es at each
  induction es generalizing r with
  | nil => exact h
  | cons e es ih =>
    obtain ⟨⟨valid, built⟩, each⟩ := List.forall_mem_cons.1 each
    exact ih (h.insert valid built) each

theorem Built.insert {r : Registry} (base : r.Built) {name : Bytes} {rule : Rule}
    (valid : isValidName name = true) (built : rule.Built) : (r.insert name rule).Built :=
  .set base built (by rw [Registry.set, if_pos valid])

theorem Built.orderly {r : Registry} (h : r.Built) : Orderly r := by
  induction h with
  | empty => exact ⟨List.nodup_nil, nofun, nofun⟩
  | set _ built done ih =>
    rw [Registry.set] at done
    split at done
    · rename_i valid
      cases done
      exact ih.insert valid built
    · cases done
  | merge _ _ ih ih' => exact ih.merge ih'

/-- Where no name stands twice, every entry is found under its name. -/
theorem get?_of_mem {r : Registry} (nodup : r.names.Nodup) {e : Entry Rule} (mem : e ∈ r.entries) :
    r.get? e.name = some e.rule := by
  rw [names] at nodup
  rw [get?]
  generalize r.entries = es at nodup mem
  induction es with
  | nil => cases mem
  | cons d es ih =>
    obtain ⟨new, nodup⟩ := List.nodup_cons.1 nodup
    obtain rfl | mem := List.mem_cons.1 mem
    · simp
    · have other : (d.name == e.name) = false := by
        rw [beq_eq_false_iff_ne]
        intro same
        exact new (same ▸ List.mem_map_of_mem mem)
      rw [List.find?_cons, other]
      exact ih nodup mem

theorem Orderly.get?_eq {r : Registry} (h : Orderly r) {e : Entry Rule} (mem : e ∈ r.entries) :
    r.get? e.name = some e.rule :=
  get?_of_mem h.nodup mem

end Registry

end Rulebook

import Rulebook.Proofs.Registry

/-!
# Laws of registries

What setting a rule and merging a registry do to the names and to the rules under them. A registry in
which no name stands twice is known by its names and by what stands under them (`Registry.ext_names`),
so that the laws of merging follow from what it does to both.
-/

namespace Rulebook

namespace Registry

variable {r s a b c other : Registry} {name : Bytes} {rule : Rule}

theorem mem_names_iff : name ∈ r.names ↔ (r.get? name).isSome = true := by
  rw [names, get?, Option.isSome_map, List.find?_isSome, List.mem_map]
  simp only [beq_iff_eq]

theorem get?_cons (e : Entry Rule) (es : List (Entry Rule)) (n : Bytes) :
    (⟨e :: es⟩ : Registry).get? n = if n = e.name then some e.rule else (⟨es⟩ : Registry).get? n := by
  by_cases same : n = e.name
  · rw [if_pos same, get?, List.find?_cons_of_pos (by simp [same])]
    rfl
  · rw [if_neg same, get?, get?, List.find?_cons_of_neg (by simpa using Ne.symm same)]

theorem get?_eq_none_iff : r.get? name = none ↔ name ∉ r.names := by
  rw [mem_names_iff, Option.not_isSome_iff_eq_none]

/-! ### Setting a rule -/

theorem names_insert (r : Registry) (name : Bytes) (rule : Rule) :
    (r.insert name rule).names = if name ∈ r.names then r.names else r.names ++ [name] :=
  names_put ⟨name, rule⟩ r.entries

/-- Setting a rule changes what stands under its name and nothing else. -/
theorem get?_insert (r : Registry) (name : Bytes) (rule : Rule) (n : Bytes) :
    (r.insert name rule).get? n = if n = name then some rule else r.get? n := by
  rcases r with ⟨entries⟩
  rw [insert]
  induction entries with
  | nil => exact get?_cons _ _ _
  | cons d entries ih =>
    rw [put]
    by_cases here : d.name = name
    · rw [if_pos (by rwa [beq_iff_eq]), get?_cons, get?_cons, here]
      by_cases same : n = name
      · rw [if_pos same, if_pos same]
      · rw [if_neg same, if_neg same, if_neg same]
    · rw [if_neg (by rwa [beq_iff_eq]), get?_cons, get?_cons, ih]
      by_cases same : n = d.name
      · rw [if_pos same, if_pos same, if_neg (same ▸ here)]
      · rw [if_neg same, if_neg same]

/-- True of a registry in which every name is valid and none stands twice. -/
structure Tidy (r : Registry) : Prop where
  nodup : r.names.Nodup
  valid : ∀ name ∈ r.names, isValidName name = true

theorem tidy_empty : Tidy empty := ⟨List.nodup_nil, nofun⟩

theorem Tidy.insert (h : r.Tidy) (valid : isValidName name = true) : (r.insert name rule).Tidy := by
  constructor
  · rw [names_insert]
    by_cases known : name ∈ r.names
    · rw [if_pos known]
      exact h.nodup
    · rw [if_neg known, ← List.concat_eq_append]
      exact h.nodup.concat known
  · intro n mem
    rw [names_insert] at mem
    by_cases known : name ∈ r.names
    · rw [if_pos known] at mem
      exact h.valid n mem
    · rw [if_neg known] at mem
      rcases List.mem_append.1 mem with mem | mem
      · exact h.valid n mem
      · rwa [List.mem_singleton.1 mem]

/-- A rule is set if there is one and its name is valid. -/
theorem set_eq_ok_iff {rule? : Option Rule} :
    r.set name rule? = .ok s ↔
      ∃ rule, rule? = some rule ∧ isValidName name = true ∧ s = r.insert name rule := by
  cases rule? with
  | none =>
    rw [set]
    constructor
    · intro done
      cases done
    · rintro ⟨_, missing, -⟩
      cases missing
  | some rule =>
    rw [set]
    by_cases valid : isValidName name = true
    · rw [if_pos valid, Except.ok.injEq]
      constructor
      · rintro rfl
        exact ⟨rule, rfl, valid, rfl⟩
      · rintro ⟨_, same, -, rfl⟩
        cases same
        rfl
    · rw [if_neg valid]
      constructor
      · intro done
        cases done
      · rintro ⟨_, -, valid', -⟩
        exact absurd valid' valid

/-! ### Merging -/

theorem names_foldl_insert (es : List (Entry Rule)) (nodup : (es.map Entry.name).Nodup)
    (r : Registry) :
    (es.foldl (fun r e => r.insert e.name e.rule) r).names =
      r.names ++ (es.map Entry.name).filter (· ∉ r.names) := by
  induction es generalizing r with
  | nil => exact (List.append_nil _).symm
  | cons e es ih =>
    rw [List.map_cons] at nodup ⊢
    rcases List.nodup_cons.1 nodup with ⟨new, nodup⟩
    rw [List.foldl_cons, ih nodup, names_insert]
    by_cases known : e.name ∈ r.names
    · rw [if_pos known, List.filter_cons_of_neg (by simpa using known)]
    · -- no later name is the one that was just appended
      have others : (es.map Entry.name).filter (· ∉ r.names ++ [e.name]) =
          (es.map Entry.name).filter (· ∉ r.names) := by
        apply List.filter_congr
        intro n mem
        have other : n ≠ e.name := by
          rintro rfl
          exact new mem
        simp [other]
      rw [if_neg known, others, List.filter_cons_of_pos (by simpa using known), List.append_assoc]
      rfl

theorem get?_foldl_insert (es : List (Entry Rule)) (nodup : (es.map Entry.name).Nodup)
    (r : Registry) (n : Bytes) :
    (es.foldl (fun r e => r.insert e.name e.rule) r).get? n =
      ((⟨es⟩ : Registry).get? n).or (r.get? n) := by
  induction es generalizing r with
  | nil => rfl
  | cons e es ih =>
    rw [List.map_cons] at nodup
    rcases List.nodup_cons.1 nodup with ⟨new, nodup⟩
    rw [List.foldl_cons, ih nodup, get?_insert, get?_cons]
    by_cases same : n = e.name
    · have later : (⟨es⟩ : Registry).get? n = none := get?_eq_none_iff.2 (same ▸ new)
      rw [if_pos same, if_pos same, later]
      rfl
    · rw [if_neg same, if_neg same]

/-- The order is that of the registry, followed by the new names in the order of the other one. -/
theorem names_merge (h : other.Tidy) (r : Registry) :
    (r.merge other).names = r.names ++ other.names.filter (· ∉ r.names) :=
  names_foldl_insert other.entries h.nodup r

/-- Where the other registry has a name, its rule stands under the name. -/
theorem get?_merge (h : other.Tidy) (r : Registry) (n : Bytes) :
    (r.merge other).get? n = (other.get? n).or (r.get? n) :=
  get?_foldl_insert other.entries h.nodup r n

theorem mem_names_merge (h : other.Tidy) (r : Registry) :
    name ∈ (r.merge other).names ↔ name ∈ r.names ∨ name ∈ other.names := by
  rw [names_merge h, List.mem_append, List.mem_filter, decide_eq_true_eq]
  by_cases known : name ∈ r.names
  · exact ⟨fun _ => .inl known, fun _ => .inl known⟩
  · exact ⟨Or.imp_right And.left, Or.imp_right fun mem => ⟨mem, known⟩⟩

theorem Tidy.merge (h : r.Tidy) (h' : other.Tidy) : (r.merge other).Tidy := by
  constructor
  · rw [names_merge h']
    apply h.nodup.append (h'.nodup.filter _)
    intro n mem mem'
    exact absurd mem (by simpa using (List.mem_filter.1 mem').2)
  · intro n mem
    rcases (mem_names_merge h' r).1 mem with mem | mem
    · exact h.valid n mem
    · exact h'.valid n mem

/-! ### Laws of merging -/

/-- Registries with the same names in the same order, none of them twice, and with the same rules
    under them are the same. -/
theorem ext_names (h : r.Tidy) (order : r.names = s.names) (rules : ∀ n, r.get? n = s.get? n) :
    r = s := by
  rcases r with ⟨ds⟩
  rcases s with ⟨es⟩
  have nodup : (ds.map Entry.name).Nodup := h.nodup
  clear h
  induction ds generalizing es with
  | nil =>
    have none : es = [] := List.map_eq_nil_iff.1 order.symm
    rw [none]
  | cons d ds ih =>
    cases es with
    | nil => cases order
    | cons e es =>
      rcases List.cons.inj order with ⟨first, order⟩
      rcases List.nodup_cons.1 nodup with ⟨new, nodup⟩
      have rule := rules d.name
      rw [get?_cons, get?_cons, if_pos rfl, if_pos first, Option.some.injEq] at rule
      have later : ds = es := by
        refine Registry.mk.inj (ih es order (fun n => ?_) nodup)
        by_cases same : n = d.name
        · have new' : d.name ∉ es.map Entry.name := order ▸ new
          rw [same, get?_eq_none_iff.2 new, get?_eq_none_iff.2 new']
        · have here := rules n
          rw [get?_cons, get?_cons, if_neg same, if_neg (first ▸ same)] at here
          exact here
      rcases d with ⟨m, d⟩
      rcases e with ⟨n, e⟩
      rw [later, show m = n from first, show d = e from rule]

/-- Merging a registry into itself changes nothing. -/
theorem merge_self (h : r.Tidy) : r.merge r = r := by
  apply ext_names (h.merge h)
  · have none : r.names.filter (· ∉ r.names) = [] :=
      List.filter_eq_nil_iff.2 fun n mem => by simpa using mem
    rw [names_merge h, none, List.append_nil]
  · intro n
    rw [get?_merge h, Option.or_self]

theorem merge_assoc (ha : a.Tidy) (hb : b.Tidy) (hc : c.Tidy) :
    (a.merge b).merge c = a.merge (b.merge c) := by
  apply ext_names ((ha.merge hb).merge hc)
  · rw [names_merge hc, names_merge (hb.merge hc), names_merge hb, names_merge hc,
      List.filter_append, List.filter_filter, List.append_assoc]
    congr 2
    apply List.filter_congr
    intro n _
    by_cases known : n ∈ a.names <;> by_cases known' : n ∈ b.names <;>
      simp [known, known']
  · intro n
    rw [get?_merge hc, get?_merge (hb.merge hc), get?_merge hb, get?_merge hc, Option.or_assoc]

/-- Merging a registry once more changes nothing. -/
theorem merge_merge_self (h : r.Tidy) (h' : other.Tidy) :
    (r.merge other).merge other = r.merge other := by
  rw [merge_assoc h h' h', merge_self h']

end Registry

end Rulebook

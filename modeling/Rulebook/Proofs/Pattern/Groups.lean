import Rulebook.Proofs.Pattern.Captures

/-!
# What stands in a group

The span that a passage leaves noted for a group is that of a passage of what stands in the group:
`Expr.traced`. If the group was passed several times, it is that of the last time.
-/

namespace Rulebook

namespace Pattern

/-- A group with its number, its name and what stands in it. -/
abbrev Group := Nat × Bytes × Expr

/-- Tells of marks that have been noted from a place on that a group with a number either has not
    been noted, or spans a passage of what stands in it. -/
def Marks.Traced (groups : List Group) (k : Nat) (c : Cursor) (m : Marks) : Prop :=
  (m.lookup (Expr.slot k) = none ∧ m.lookup (Expr.slot k + 1) = none) ∨
    ∃ name body c' d' inner, (k, name, body) ∈ groups ∧ c' ∈ c.onward ∧ body.passes c' d' inner ∧
      m.span? k = some (c'.offset, d'.offset)

/-- True of a passage that leads onward, and that leaves every group traced. -/
def Passage.Traces (p : Passage) (groups : List Group) : Prop :=
  ∀ c d m, p c d m → d ∈ c.onward ∧ ∀ k, m.Traced groups k c

namespace Passage.Traces

variable {p q : Passage} {groups others : List Group}

theorem mono (h : p.Traces groups) (sub : groups ⊆ others) : p.Traces others := by
  intro c d m here
  obtain ⟨onward, traced⟩ := h c d m here
  refine ⟨onward, fun k => (traced k).imp id ?_⟩
  rintro ⟨name, body, c', d', inner, mem, rest⟩
  exact ⟨name, body, c', d', inner, sub mem, rest⟩

theorem stay (groups : List Group) : Passage.stay.Traces groups := by
  rintro c d m ⟨rfl, rfl⟩
  exact ⟨Cursor.mem_onward.2 ⟨[], rfl, rfl⟩, fun k => .inl ⟨rfl, rfl⟩⟩

/-- What was noted last counts. -/
theorem andThen (hp : p.Traces groups) (hq : q.Traces groups) : (p.andThen q).Traces groups := by
  rintro c e m ⟨d, m₁, m₂, first, second, rfl⟩
  obtain ⟨onward, before⟩ := hp c d m₁ first
  obtain ⟨onward', after⟩ := hq d e m₂ second
  refine ⟨Cursor.onward_trans onward onward', fun k => ?_⟩
  obtain ⟨start, stop⟩ | ⟨name, body, c', d', inner, mem, place, here, span⟩ := after k
  · have same : ∀ slot, m₂.lookup slot = none → (m₂ ++ m₁).lookup slot = m₁.lookup slot := by
      intro slot none
      rw [List.lookup_append, none, Option.none_or]
    simpa only [Marks.Traced, Marks.span?, same _ start, same _ stop] using before k
  · exact .inr ⟨name, body, c', d', inner, mem, Cursor.onward_trans onward place, here,
      Marks.span?_append_left span⟩

theorem orElse (hp : p.Traces groups) (hq : q.Traces groups) : (p.orElse q).Traces groups := by
  intro c d m here
  obtain here | here := here
  · exact hp c d m here
  · exact hq c d m here

theorem often (hp : p.Traces groups) (allowed : Nat → Prop) :
    (p.often allowed).Traces groups := by
  have rounds (n : Nat) : (p.power n).Traces groups := by
    induction n with
    | zero => exact stay groups
    | succ n ih => exact hp.andThen ih
  rintro c d m ⟨n, -, here⟩
  exact rounds n c d m here

end Passage.Traces

namespace Expr

/-- The groups in the order in which they open. -/
def groups : Expr → List Group
  | empty => []
  | one _ => []
  | test _ => []
  | group index name e => (index, name, e) :: e.groups
  | cat a b => a.groups ++ b.groups
  | alt a b => a.groups ++ b.groups
  | star _ e => e.groups
  | plus _ e => e.groups
  | opt _ e => e.groups
  | times _ _ _ e => e.groups

/-- What a passage leaves noted of a group is what stood in the group when it was last passed. -/
theorem traced (e : Expr) (distinct : e.numbers.Nodup) : e.passes.Traces e.groups := by
  induction e with
  | empty => exact .stay _
  | one set =>
    rintro c d m ⟨s, rest, eq, -, rfl, rfl⟩
    exact ⟨Cursor.past_eq_advance c s rest ▸ Cursor.advance_mem_onward eq, fun k => .inl ⟨rfl, rfl⟩⟩
  | test condition =>
    rintro c d m ⟨-, rfl, rfl⟩
    exact ⟨Cursor.mem_onward.2 ⟨[], rfl, rfl⟩, fun k => .inl ⟨rfl, rfl⟩⟩
  | group index name e ih =>
    have own := List.nodup_cons.1 distinct
    rintro c d m ⟨inner, here, rfl⟩
    obtain ⟨onward, traced⟩ := ih own.2 c d inner here
    refine ⟨onward, fun k => ?_⟩
    by_cases same : k = index
    · subst same
      exact .inr ⟨name, e, c, d, inner, List.mem_cons_self .., Cursor.mem_onward.2 ⟨[], rfl, rfl⟩,
        here, Marks.span?_group (e.passes_only here) own.1 ..⟩
    · obtain ⟨start, stop⟩ | ⟨name', body, c', d', inner', mem, place, here, span⟩ := traced k
      · have bound (slot : Nat) (low : Nat) (eq : slot = Expr.slot index ∨ slot = Expr.slot index + 1) :
            Marks.Only [index] [(slot, low)] := by
          rintro mark mem
          cases List.mem_singleton.1 mem
          exact ⟨index, List.mem_singleton_self _, eq⟩
        have first := (bound _ c.offset (.inl rfl)).lookup_eq_none (by simpa using same)
        have last := (bound _ d.offset (.inr rfl)).lookup_eq_none (by simpa using same)
        rw [← List.singleton_append]
        simp only [Marks.Traced, List.lookup_append, first, last, start, stop]
        exact .inl ⟨rfl, rfl⟩
      · refine .inr ⟨name', body, c', d', inner', List.mem_cons_of_mem _ mem, place, here, ?_⟩
        rw [Marks.span?_group_of_ne same, span]
  | cat a b iha ihb =>
    rw [numbers, slots, List.map_append, List.nodup_append] at distinct
    exact ((iha distinct.1).mono (List.subset_append_left ..)).andThen
      ((ihb distinct.2.1).mono (List.subset_append_right ..))
  | alt a b iha ihb =>
    rw [numbers, slots, List.map_append, List.nodup_append] at distinct
    exact ((iha distinct.1).mono (List.subset_append_left ..)).orElse
      ((ihb distinct.2.1).mono (List.subset_append_right ..))
  | star _ e ih => exact (ih distinct).often _
  | plus _ e ih => exact (ih distinct).often _
  | opt _ e ih => exact (ih distinct).orElse (.stay _)
  | times _ _ _ e ih => exact (ih distinct).often _

/-! ### Groups of parts -/

theorem slots_groups (e : Expr) : e.groups.map (fun g => (g.1, g.2.1)) = e.slots := by
  induction e with
  | empty | one | test => rfl
  | group _ _ _ ih => simp [groups, slots, ih]
  | cat _ _ ih ih' => simp [groups, slots, ih, ih']
  | alt _ _ ih ih' => simp [groups, slots, ih, ih']
  | star _ _ ih => exact ih
  | plus _ _ ih => exact ih
  | opt _ _ ih => exact ih
  | times _ _ _ _ ih => exact ih

theorem names_groups (e : Expr) : e.groups.map (·.2.1) = e.names := by
  rw [← map_snd_slots, ← slots_groups, List.map_map]
  rfl

theorem groups_concat (es : List Expr) : (concat es).groups = es.flatMap groups := by
  fun_induction concat es with
  | case1 => rfl
  | case2 e => simp
  | case3 e rest several ih => simp [groups, ih]

theorem groups_choice (es : List Expr) : (choice es).groups = es.flatMap groups := by
  fun_induction choice es with
  | case1 => rfl
  | case2 e => simp
  | case3 e rest several ih => simp [groups, ih]

/-- Each group of a numbered expression is one of the expression, with what stands in it numbered
    from somewhere on. -/
theorem groups_numberFrom (e : Expr) (next : Nat) {k : Nat} {name : Bytes} {body : Expr}
    (mem : (k, name, body) ∈ (e.numberFrom next).1.groups) :
    ∃ k' body', (k', name, body') ∈ e.groups ∧ Numbers body body' := by
  induction e generalizing next with
  | empty | one | test => cases mem
  | group index name' e ih =>
    obtain same | mem := List.mem_cons.1 mem
    · cases same
      exact ⟨index, e, List.mem_cons_self .., _, rfl⟩
    · obtain ⟨k', body', mem, numbers⟩ := ih _ mem
      exact ⟨k', body', List.mem_cons_of_mem _ mem, numbers⟩
  | cat a b iha ihb | alt a b iha ihb =>
    obtain mem | mem := List.mem_append.1 mem
    · obtain ⟨k', body', mem, numbers⟩ := iha _ mem
      exact ⟨k', body', List.mem_append_left _ mem, numbers⟩
    · obtain ⟨k', body', mem, numbers⟩ := ihb _ mem
      exact ⟨k', body', List.mem_append_right _ mem, numbers⟩
  | star _ e ih | plus _ e ih | opt _ e ih | times _ _ _ e ih => exact ih _ mem

end Expr

end Pattern

end Rulebook

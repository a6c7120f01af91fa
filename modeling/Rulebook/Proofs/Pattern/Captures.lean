import Mathlib.Data.List.Forall2
import Rulebook.Proofs.Pattern.Numbering
import Rulebook.Proofs.Pattern.Passage
import Rulebook.Proofs.Pattern.Regrouping
import Rulebook.Proofs.Pattern.Spans

/-!
# What groups take

Which groups a passage leaves noted, and where they lie. A passage notes the groups of its expression
and no others (`Expr.passes_only`); the groups that stand one after another in a concatenation have
all been noted, in a row (`Expr.spans_concat`); and a choice notes the groups of one of its
alternatives (`Expr.spans_choice`).
-/

namespace Rulebook

namespace Pattern

namespace Marks

/-- Where a group lies, if it has been noted. What was noted last counts. -/
def span? (m : Marks) (number : Nat) : Option (Nat × Nat) :=
  match m.lookup (Expr.slot number), m.lookup (Expr.slot number + 1) with
  | some start, some stop => some (start, stop)
  | _, _ => none

/-- True if no groups but those with certain numbers have been noted. -/
def Only (numbers : List Nat) (m : Marks) : Prop :=
  ∀ mark ∈ m, ∃ k ∈ numbers, mark.1 = Expr.slot k ∨ mark.1 = Expr.slot k + 1

variable {m m' : Marks} {numbers numbers' : List Nat} {k j : Nat}

theorem only_nil (numbers : List Nat) : Only numbers [] := nofun

theorem Only.mono (h : Only numbers m) (sub : numbers ⊆ numbers') : Only numbers' m := by
  intro mark mem
  obtain ⟨k, here, slot⟩ := h mark mem
  exact ⟨k, sub here, slot⟩

theorem Only.append (h : Only numbers m) (h' : Only numbers m') : Only numbers (m ++ m') := by
  intro mark mem
  exact (List.mem_append.1 mem).elim (h mark) (h' mark)

theorem Only.lookup_eq_none (h : Only numbers m) (other : k ∉ numbers) :
    m.lookup (Expr.slot k) = none ∧ m.lookup (Expr.slot k + 1) = none := by
  have absent {slot : Nat} (here : slot = Expr.slot k ∨ slot = Expr.slot k + 1) :
      m.lookup slot = none := by
    by_contra found
    obtain ⟨offset, found⟩ := Option.ne_none_iff_exists'.1 found
    obtain ⟨j, mem, same⟩ := h _ (mem_of_lookup found)
    have eq : j = k := by
      simp only [Expr.slot] at here same
      omega
    exact other (eq ▸ mem)
  exact ⟨absent (.inl rfl), absent (.inr rfl)⟩

theorem Only.mem_of_span? (h : Only numbers m) {span : Nat × Nat} (found : m.span? k = some span) :
    k ∈ numbers := by
  by_contra other
  rw [span?, (h.lookup_eq_none other).1] at found
  cases found

theorem span?_eq_some {span : Nat × Nat} :
    m.span? k = some span ↔
      m.lookup (Expr.slot k) = some span.1 ∧ m.lookup (Expr.slot k + 1) = some span.2 := by
  unfold span?
  split
  · rename_i start stop here there
    rw [here, there]
    simp [Prod.ext_iff]
  · rename_i missing
    simp only [reduceCtorEq, false_iff]
    exact fun ⟨here, there⟩ => missing _ _ here there

/-- What was noted before makes no difference to a group that has been noted since. -/
theorem span?_append_left {span : Nat × Nat} (h : m'.span? k = some span) :
    (m' ++ m).span? k = some span := by
  rw [span?_eq_some] at h ⊢
  rw [List.lookup_append, List.lookup_append, h.1, h.2]
  exact ⟨rfl, rfl⟩

/-- What has been noted since of other groups makes no difference. -/
theorem span?_append_right (h : Only numbers m') (other : k ∉ numbers) :
    (m' ++ m).span? k = m.span? k := by
  rw [span?, span?, List.lookup_append, List.lookup_append, (h.lookup_eq_none other).1,
    (h.lookup_eq_none other).2]
  rfl

/-- The marks of a group around other marks. -/
theorem span?_group (h : Only numbers m) (other : k ∉ numbers) (low high : Nat) :
    Marks.span? ((Expr.slot k + 1, high) :: (m ++ [(Expr.slot k, low)])) k = some (low, high) := by
  rw [span?_eq_some, lookup_slot_cons, lookup_succ_cons, if_pos rfl, List.lookup_append,
    (h.lookup_eq_none other).1]
  simp

theorem span?_group_of_ne (ne : j ≠ k) (low high : Nat) :
    Marks.span? ((Expr.slot k + 1, high) :: (m ++ [(Expr.slot k, low)])) j = m.span? j := by
  have start : (Expr.slot j == Expr.slot k) = false := by
    simp only [Expr.slot, beq_eq_false_iff_ne]
    omega
  have stop : (Expr.slot j + 1 == Expr.slot k) = false := by
    simp only [Expr.slot, beq_eq_false_iff_ne]
    omega
  rw [span?, span?, lookup_slot_cons, lookup_succ_cons, if_neg ne, List.lookup_append,
    List.lookup_append]
  simp [List.lookup_cons, start, stop]

end Marks

theorem Program.Found.group?_eq (f : Found) (number : Nat) :
    f.group? number = Marks.span? f.marks number := rfl

/-! ### Rounds -/

namespace Passage

/-- The last of several rounds. -/
theorem power_succ_last (a : Passage) (n : Nat) : a.power (n + 1) = (a.power n).andThen a := by
  rw [power_add, power_one]

theorem power_only {a : Passage} {numbers : List Nat}
    (h : ∀ c d m, a c d m → Marks.Only numbers m) (n : Nat) {c d : Cursor} {m : Marks}
    (rounds : a.power n c d m) : Marks.Only numbers m := by
  induction n generalizing c m with
  | zero =>
    obtain ⟨-, rfl⟩ := rounds
    exact Marks.only_nil numbers
  | succ n ih =>
    obtain ⟨e, m₁, m₂, first, others, rfl⟩ := rounds
    exact (ih others).append (h _ _ _ first)

end Passage

namespace Expr

/-- The numbers of the groups, in the order in which the groups open. -/
def numbers (e : Expr) : List Nat := e.slots.map Prod.fst

/-- No groups are noted but those of the expression. -/
theorem passes_only (e : Expr) : ∀ {c d : Cursor} {m : Marks}, e.passes c d m →
    Marks.Only e.numbers m := by
  induction e with
  | empty =>
    rintro c d m ⟨-, rfl⟩
    exact Marks.only_nil _
  | one set =>
    rintro c d m ⟨s, rest, -, -, -, rfl⟩
    exact Marks.only_nil _
  | test condition =>
    rintro c d m ⟨-, -, rfl⟩
    exact Marks.only_nil _
  | group index name e ih =>
    rintro c d m ⟨inner, here, rfl⟩ mark mem
    simp only [List.mem_cons, List.mem_append, List.not_mem_nil, or_false] at mem
    obtain rfl | mem | rfl := mem
    · exact ⟨index, List.mem_cons_self .., .inr rfl⟩
    · exact (ih here).mono (List.subset_cons_self index e.numbers) mark mem
    · exact ⟨index, List.mem_cons_self .., .inl rfl⟩
  | cat a b ha hb =>
    rintro c d m ⟨e, m₁, m₂, first, second, rfl⟩
    rw [numbers, slots, List.map_append]
    exact ((hb second).mono (List.subset_append_right ..)).append
      ((ha first).mono (List.subset_append_left ..))
  | alt a b ha hb =>
    rintro c d m (first | second)
    · rw [numbers, slots, List.map_append]
      exact (ha first).mono (List.subset_append_left ..)
    · rw [numbers, slots, List.map_append]
      exact (hb second).mono (List.subset_append_right ..)
  | star greedy e ih =>
    rintro c d m ⟨n, -, rounds⟩
    exact Passage.power_only (fun _ _ _ => ih) n rounds
  | plus greedy e ih =>
    rintro c d m ⟨n, -, rounds⟩
    exact Passage.power_only (fun _ _ _ => ih) n rounds
  | opt greedy e ih =>
    rintro c d m (here | ⟨-, rfl⟩)
    · exact ih here
    · exact Marks.only_nil _
  | times low high greedy e ih =>
    rintro c d m ⟨n, -, rounds⟩
    exact Passage.power_only (fun _ _ _ => ih) n rounds

theorem offset_le_of_passes {e : Expr} {c d : Cursor} {m : Marks} (h : e.passes c d m) :
    c.offset ≤ d.offset :=
  Cursor.offset_le_of_onward (reaches_iff.2 h).mem_onward

/-- How a concatenation is put together makes no difference to what it takes. -/
theorem Regroups.passes_eq {a b : Expr} (h : Regroups a b) : a.passes = b.passes := by
  rw [← a.takes_build 0, ← b.takes_build 0, h.build_eq]

theorem Regroups.slots_eq {a b : Expr} (h : Regroups a b) : a.slots = b.slots := by
  induction h with
  | refl => rfl
  | symm _ ih => exact ih.symm
  | trans _ _ ih ih' => exact ih.trans ih'
  | assoc => simp [slots]
  | empty_cat => simp [slots]
  | cat_empty => simp [slots]
  | _ => simp_all [slots]

theorem passes_concat_cons (e : Expr) (es : List Expr) :
    (concat (e :: es)).passes = e.passes.andThen (concat es).passes :=
  (regroups_concat_cons e es).passes_eq

/-! ### Groups in a row -/

/-- True of an expression that is a group of a name, if there is a name. -/
def Titled (e : Expr) (name : Bytes) : Prop := name ≠ [] → ∃ k body, e = .group k name body

/-- A group takes all that its expression takes. -/
theorem span?_group {k : Nat} {name : Bytes} {e : Expr} (distinct : (group k name e).numbers.Nodup)
    {c d : Cursor} {m : Marks} (here : (group k name e).passes c d m) :
    m.span? k = some (c.offset, d.offset) := by
  obtain ⟨inner, here, rfl⟩ := here
  exact Marks.span?_group (e.passes_only here) (List.nodup_cons.1 distinct).1 ..

/-- Spans between two places, none of which starts before the end of one before it. -/
structure InRow (low high : Nat) (spans : List (Nat × Nat)) : Prop where
  within : ∀ span ∈ spans, low ≤ span.1 ∧ span.1 ≤ span.2 ∧ span.2 ≤ high
  apart : spans.Pairwise (·.2 ≤ ·.1)

theorem InRow.cons {low mid high : Nat} {spans : List (Nat × Nat)} (h : InRow mid high spans)
    (le : low ≤ mid) (le' : mid ≤ high) : InRow low high ((low, mid) :: spans) where
  within := by
    intro span mem
    obtain rfl | mem := List.mem_cons.1 mem
    · exact ⟨Nat.le_refl _, le, le'⟩
    · obtain ⟨first, second, third⟩ := h.within span mem
      exact ⟨Nat.le_trans le first, second, third⟩
  apart := List.pairwise_cons.2 ⟨fun span mem => (h.within span mem).1, h.apart⟩

theorem InRow.widen {low mid high : Nat} {spans : List (Nat × Nat)} (h : InRow mid high spans)
    (le : low ≤ mid) : InRow low high spans where
  within span mem := by
    obtain ⟨first, second, third⟩ := h.within span mem
    exact ⟨Nat.le_trans le first, second, third⟩
  apart := h.apart

/-- The groups with names that stand side by side in a concatenation have been noted in a row. -/
theorem spans_concat {es : List Expr} {names : List Bytes} (titled : List.Forall₂ Titled es names)
    (distinct : (concat es).numbers.Nodup) {c d : Cursor} {m : Marks}
    (h : (concat es).passes c d m) :
    ∃ spans, List.Forall₂
        (fun name span => ∃ k, (k, name) ∈ (concat es).slots ∧ m.span? k = some span)
        (names.filter (!·.isEmpty)) spans ∧
      InRow c.offset d.offset spans := by
  induction titled generalizing c m with
  | nil => exact ⟨[], .nil, nofun, .nil⟩
  | @cons e name es names title _ ih =>
    rw [passes_concat_cons] at h
    obtain ⟨mid, m₁, m₂, first, others, rfl⟩ := h
    have slots : (concat (e :: es)).slots = e.slots ++ (concat es).slots := by
      simp [slots_concat]
    rw [numbers, slots, List.map_append, List.nodup_append] at distinct
    obtain ⟨own, rest, apart⟩ := distinct
    obtain ⟨spans, noted, row⟩ := ih rest others
    rw [slots]
    have noted : List.Forall₂
        (fun name span => ∃ k, (k, name) ∈ e.slots ++ (concat es).slots ∧
          (m₂ ++ m₁).span? k = some span) (names.filter (!·.isEmpty)) spans :=
      noted.imp fun _ _ ⟨k, mem, span⟩ =>
        ⟨k, List.mem_append_right e.slots mem, Marks.span?_append_left span⟩
    have le := offset_le_of_passes first
    cases name with
    | nil => exact ⟨spans, noted, row.widen le⟩
    | cons b name =>
      obtain ⟨k, body, rfl⟩ := title (by simp)
      refine ⟨_, .cons ⟨k, by simp [Expr.slots], ?_⟩ noted,
        row.cons le (offset_le_of_passes others)⟩
      rw [Marks.span?_append_right (passes_only _ others)
        fun mem => apart k (List.mem_cons_self ..) k mem rfl]
      exact span?_group own first

/-! ### Groups in a choice -/

theorem mem_slots_of_titled {es : List Expr} {names : List Bytes}
    (titled : List.Forall₂ Titled es names) {name : Bytes} (mem : name ∈ names)
    (isNamed : name ≠ []) : ∃ k, (k, name) ∈ (choice es).slots := by
  rw [slots_choice]
  induction titled with
  | nil => cases mem
  | @cons e name' es names title _ ih =>
    rw [List.flatMap_cons]
    obtain rfl | mem := List.mem_cons.1 mem
    · obtain ⟨k, body, rfl⟩ := title isNamed
      exact ⟨k, by simp [slots]⟩
    · obtain ⟨k, mem⟩ := ih mem
      exact ⟨k, List.mem_append_right _ mem⟩

/-- One of the alternatives has been taken: its group has been noted if it has a name, and those of
    the others have not. -/
theorem spans_choice {es : List Expr} {names : List Bytes} (titled : List.Forall₂ Titled es names)
    (several : es ≠ []) (distinct : (choice es).numbers.Nodup) {c d : Cursor} {m : Marks}
    (h : (choice es).passes c d m) :
    ∃ before name after, names = before ++ name :: after ∧
      (name ≠ [] → ∃ k span, (k, name) ∈ (choice es).slots ∧ m.span? k = some span) ∧
      ∀ other ∈ before ++ after, other ≠ [] →
        ∃ k, (k, other) ∈ (choice es).slots ∧ m.span? k = none := by
  induction titled with
  | nil => exact absurd rfl several
  | @cons e name es names title others ih =>
    have absent {k : Nat} {part : Expr} (taken : part.passes c d m) (other : k ∉ part.numbers) :
        m.span? k = none := by
      by_contra noted
      obtain ⟨span, noted⟩ := Option.ne_none_iff_exists'.1 noted
      exact other ((passes_only part taken).mem_of_span? noted)
    have here (taken : e.passes c d m) (own : e.numbers.Nodup) (isNamed : name ≠ []) :
        ∃ k span, (k, name) ∈ e.slots ∧ m.span? k = some span := by
      obtain ⟨k, body, rfl⟩ := title isNamed
      exact ⟨k, _, by simp [slots], span?_group own taken⟩
    cases es with
    | nil =>
      cases others
      exact ⟨[], name, [], rfl, here h distinct, by simp⟩
    | cons e' es =>
      rw [choice] at h
      · have slots : (choice (e :: e' :: es)).slots = e.slots ++ (choice (e' :: es)).slots := by
          rw [slots_choice, slots_choice, List.flatMap_cons]
        rw [numbers, slots, List.map_append, List.nodup_append] at distinct
        obtain ⟨own, rest, apart⟩ := distinct
        rw [slots]
        obtain taken | taken := h
        · refine ⟨[], name, names, rfl, fun isNamed => ?_, fun other mem isNamed => ?_⟩
          · obtain ⟨k, span, mem, noted⟩ := here taken own isNamed
            exact ⟨k, span, List.mem_append_left _ mem, noted⟩
          · obtain ⟨k, mem⟩ := mem_slots_of_titled others mem isNamed
            refine ⟨k, List.mem_append_right _ mem, absent taken fun mem' => ?_⟩
            exact apart k mem' k (List.mem_map_of_mem mem) rfl
        · obtain ⟨before, chosen, after, rfl, noted, missing⟩ := ih (by simp) rest taken
          refine ⟨name :: before, chosen, after, rfl, fun isNamed => ?_, fun other mem isNamed => ?_⟩
          · obtain ⟨k, span, mem, noted⟩ := noted isNamed
            exact ⟨k, span, List.mem_append_right _ mem, noted⟩
          · obtain rfl | mem := List.mem_cons.1 mem
            · obtain ⟨k, body, rfl⟩ := title isNamed
              refine ⟨k, by simp [Expr.slots], absent taken fun mem' => ?_⟩
              exact apart k (List.mem_cons_self ..) k mem' rfl
            · obtain ⟨k, mem, none⟩ := missing other mem isNamed
              exact ⟨k, List.mem_append_right _ mem, none⟩
      · rintro ⟨⟩

/-! ### Numbers of parts -/

theorem numbers_numberFrom (e : Expr) (next : Nat) :
    (e.numberFrom next).2 = next + e.slots.length ∧
      (e.numberFrom next).1.numbers = List.range' next e.slots.length := by
  unfold numbers
  induction e generalizing next with
  | empty | one | test => exact ⟨rfl, rfl⟩
  | group index name e ih =>
    obtain ⟨last, numbers⟩ := ih (next + 1)
    simp only [numberFrom, slots, List.length_cons, List.map_cons, last, numbers, List.range'_succ]
    exact ⟨by omega, trivial⟩
  | cat a b ha hb =>
    obtain ⟨last, numbers⟩ := ha next
    obtain ⟨last', numbers'⟩ := hb (next + a.slots.length)
    simp only [numberFrom, slots, List.length_append, List.map_append, last, numbers, last',
      numbers', List.range'_append_1]
    exact ⟨by omega, trivial⟩
  | alt a b ha hb =>
    obtain ⟨last, numbers⟩ := ha next
    obtain ⟨last', numbers'⟩ := hb (next + a.slots.length)
    simp only [numberFrom, slots, List.length_append, List.map_append, last, numbers, last',
      numbers', List.range'_append_1]
    exact ⟨by omega, trivial⟩
  | star greedy e ih => exact ih next
  | plus greedy e ih => exact ih next
  | opt greedy e ih => exact ih next
  | times low high greedy e ih => exact ih next

/-- Each part is numbered from somewhere on. -/
def Numbers (part e : Expr) : Prop := ∃ next, part = (e.numberFrom next).1

theorem numberFrom_concat (es : List Expr) (next : Nat) :
    ∃ parts, ((concat es).numberFrom next).1 = concat parts ∧ List.Forall₂ Numbers parts es := by
  fun_induction concat es generalizing next with
  | case1 => exact ⟨[], rfl, .nil⟩
  | case2 e => exact ⟨[(e.numberFrom next).1], rfl, .cons ⟨next, rfl⟩ .nil⟩
  | case3 e rest several ih =>
    obtain ⟨parts, eq, all⟩ := ih (e.numberFrom next).2
    refine ⟨(e.numberFrom next).1 :: parts, ?_, .cons ⟨next, rfl⟩ all⟩
    cases parts with
    | nil =>
      cases all
      exact absurd rfl several
    | cons part parts => simp only [numberFrom, eq, concat]

theorem numberFrom_choice (es : List Expr) (next : Nat) :
    ∃ parts, ((choice es).numberFrom next).1 = choice parts ∧ List.Forall₂ Numbers parts es := by
  fun_induction choice es generalizing next with
  | case1 => exact ⟨[], rfl, .nil⟩
  | case2 e => exact ⟨[(e.numberFrom next).1], rfl, .cons ⟨next, rfl⟩ .nil⟩
  | case3 e rest several ih =>
    obtain ⟨parts, eq, all⟩ := ih (e.numberFrom next).2
    refine ⟨(e.numberFrom next).1 :: parts, ?_, .cons ⟨next, rfl⟩ all⟩
    cases parts with
    | nil =>
      cases all
      exact absurd rfl several
    | cons part parts => simp only [numberFrom, eq, choice]

end Expr

end Pattern

end Rulebook

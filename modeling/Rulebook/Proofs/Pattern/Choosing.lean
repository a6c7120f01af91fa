import Rulebook.Proofs.Pattern.Possible

/-!
# Choices that can match

A choice can match if one of its alternatives can: `Shape.choose_gives`. Taking common beginnings
out in front of a choice keeps to this, because what a possible alternative begins with is possible,
and so is what is left of it.
-/

namespace Rulebook

namespace Pattern

/-- True of a computation whose result has a property, whatever has been used up before. -/
def Metered.Gives {α : Type} (P : α → Prop) (f : Metered α) : Prop := ∀ u, P (f.run u).1

namespace Metered

variable {α β : Type} {P : α → Prop} {Q : β → Prop}

theorem Gives.pure {a : α} (h : P a) : Gives P (Pure.pure a) := fun _ => h

theorem Gives.bind {f : Metered α} {F : α → Metered β} (first : Gives P f)
    (then_ : ∀ a, P a → Gives Q (F a)) : Gives Q (f >>= F) :=
  fun u => then_ _ (first u) (f.run u).2

/-- What comes before does not matter if what follows holds of every result of it. -/
theorem Gives.after {f : Metered α} {F : α → Metered β} (then_ : ∀ a, Gives Q (F a)) :
    Gives Q (f >>= F) :=
  fun u => then_ _ (f.run u).2

theorem Gives.mapM {R : α → β → Prop} {F : α → Metered β} (xs : List α)
    (each : ∀ x ∈ xs, Gives (R x) (F x)) : Gives (List.Forall₂ R xs) (xs.mapM F) := by
  induction xs with
  | nil => exact Gives.pure .nil
  | cons x xs ih =>
    obtain ⟨here, each⟩ := List.forall_mem_cons.1 each
    rw [List.mapM_cons]
    exact here.bind fun _ first => (ih each).bind fun _ others => Gives.pure (.cons first others)

end Metered

namespace Shape

open Metered

/-- True if one of several shapes is possible. -/
abbrev Somewhere (parts : List Shape) : Prop := ∃ part ∈ parts, part.Possible

theorem not_somewhere_nil : ¬ Somewhere [] := by
  simp [Somewhere]

theorem somewhere_cons {part : Shape} {rest : List Shape} :
    Somewhere (part :: rest) ↔ part.Possible ∨ Somewhere rest := by
  simp [Somewhere]

theorem flatten_gives {parts : List Shape} (h : Somewhere parts) :
    Gives Somewhere (flatten parts) := by
  induction parts with
  | nil =>
    obtain ⟨part, mem, -⟩ := h
    cases mem
  | cons part rest ih =>
    rw [somewhere_cons] at h
    have apart : Gives Somewhere (do
        let others ← flatten rest
        pure (part :: others)) := by
      obtain here | others := h
      · exact Gives.after fun _ => Gives.pure (somewhere_cons.2 (.inl here))
      · exact (ih others).bind fun _ others => Gives.pure (somewhere_cons.2 (.inr others))
    cases part with
    | alt parts noted =>
      refine Gives.after fun _ => ?_
      obtain here | others := h
      · obtain ⟨p, mem, possible⟩ := possible_alt.1 here
        exact Gives.after fun _ => Gives.pure ⟨p, List.mem_append_left _ mem, possible⟩
      · exact (ih others).bind fun _ ⟨p, mem, possible⟩ =>
          Gives.pure ⟨p, List.mem_append_right _ mem, possible⟩
    | _ => exact apart

theorem weighRest_gives {s : Shape} (h : s.Possible) : Gives Possible (weighRest s) :=
  Gives.after fun _ u => (weigh_like s u).possible.2 h

/-! ### Strings in common -/

theorem possible_dropString (n : Nat) {s : Shape} (h : s.Possible) : (s.dropString n).Possible := by
  cases s with
  | literal codes flags noted =>
    rw [dropString]
    split
    · trivial
    · exact fun code mem => h code (List.mem_of_mem_drop mem)
  | _ => exact h

theorem dropLeadingString_gives (n : Nat) {s : Shape} (h : s.Possible) :
    Gives Possible (dropLeadingString n s) := by
  by_cases isCat : s.IsCat
  · obtain ⟨parts, noted, rfl⟩ := isCat
    cases parts with
    | nil => exact Gives.pure h
    | cons first rest =>
      obtain ⟨here, others⟩ := List.forall_mem_cons.1 (possible_cat.1 h)
      have cut := possible_dropString n here
      by_cases gone : dropString n first = empty
      · simp only [dropLeadingString, gone]
        cases rest with
        | nil => exact Gives.after fun _ => Gives.pure trivial
        | cons second more =>
          cases more with
          | nil =>
            exact Gives.after fun _ => Gives.after fun _ =>
              Gives.pure (others _ (List.mem_singleton_self _))
          | cons third more => exact Gives.after fun _ => Gives.pure (possible_cat.2 others)
      · have stays : dropLeadingString n (cat (first :: rest) noted) =
            pure (cat (dropString n first :: rest) noted) := by
          cases left : dropString n first with
          | empty => exact absurd left gone
          | _ => simp only [dropLeadingString, left]
        rw [stays]
        exact Gives.pure (possible_cat.2 (List.forall_mem_cons.2 ⟨cut, others⟩))
  · rw [dropLeadingString_plain n isCat]
    exact Gives.pure (possible_dropString n h)

/-- True of a string, with or without regard to case, all of whose characters are possible. -/
def Leading (lead : List Nat × Bool) : Prop :=
  ∀ code ∈ lead.1, (CaseFold.alike lead.2 code).Possible

theorem leading_of_possible {s : Shape} (h : s.Possible) : Leading s.leadingString := by
  unfold leadingString
  split
  · exact h
  · exact (List.forall_mem_cons.1 (possible_cat.1 h)).1
  · exact nofun

theorem commonStart_subset (as bs : List Nat) :
    commonStart as bs ⊆ as ∧ commonStart as bs ⊆ bs := by
  fun_induction commonStart as bs with
  | case1 a as b bs same ih =>
    simp only [beq_iff_eq] at same
    subst same
    exact ⟨List.cons_subset_cons _ ih.1, List.cons_subset_cons _ ih.2⟩
  | case2 | case3 => exact ⟨List.nil_subset _, List.nil_subset _⟩

theorem groupByString_go_spec {lead : List Nat × Bool} {members parts : List Shape}
    (h : Somewhere members → Leading lead) :
    (∀ group ∈ groupByString.go lead members parts, Somewhere group.2 → Leading group.1) ∧
      ((Somewhere members ∨ Somewhere parts) →
        ∃ group ∈ groupByString.go lead members parts, Somewhere group.2) := by
  have whole {members : List Shape} : Somewhere members.reverse ↔ Somewhere members := by
    simp [Somewhere]
  induction parts generalizing lead members with
  | nil =>
    refine ⟨fun group mem some => ?_, fun here => ⟨_, List.mem_singleton_self _, ?_⟩⟩
    · cases List.mem_singleton.1 mem
      exact h (whole.1 some)
    · exact whole.2 (here.resolve_right not_somewhere_nil)
  | cons part rest ih =>
    -- what the two strings have in common is possible if one of them is
    have common : ∃ codes, groupByString.go lead members (part :: rest) =
        (if codes.isEmpty then (lead, members.reverse) :: groupByString.go part.leadingString [part] rest
          else groupByString.go (codes, lead.2) (part :: members) rest) ∧ codes ⊆ lead.1 ∧
        (part.Possible → Leading (codes, lead.2)) := by
      refine ⟨_, rfl, ?_, fun here => ?_⟩
      · split
        · exact (commonStart_subset _ _).1
        · exact List.nil_subset _
      · split
        · rename_i same
          simp only [beq_iff_eq] at same
          rw [← same]
          exact fun code mem => leading_of_possible here code ((commonStart_subset _ _).2 mem)
        · exact List.forall_mem_nil _
    obtain ⟨codes, eq, sub, possible⟩ := common
    rw [eq, somewhere_cons]
    split
    · have alone : Somewhere [part] ↔ part.Possible := by simp [Somewhere]
      have later := ih fun here => leading_of_possible (alone.1 here)
      refine ⟨List.forall_mem_cons.2 ⟨fun here => h (whole.1 here), later.1⟩, fun here => ?_⟩
      rw [List.exists_mem_cons_iff]
      exact here.imp whole.2 fun here => later.2 (here.imp alone.2 id)
    · have later := @ih (codes, lead.2) (part :: members) fun here =>
        (somewhere_cons.1 here).elim possible fun here code mem => h here code (sub mem)
      refine ⟨later.1, fun here => later.2 ?_⟩
      rwa [somewhere_cons, or_assoc, or_left_comm]

theorem groupByString_spec (parts : List Shape) :
    (∀ group ∈ groupByString parts, Somewhere group.2 → Leading group.1) ∧
      (Somewhere parts → ∃ group ∈ groupByString parts, Somewhere group.2) := by
  cases parts with
  | nil => exact ⟨nofun, fun ⟨_, mem, _⟩ => absurd mem List.not_mem_nil⟩
  | cons part rest =>
    have alone : Somewhere [part] ↔ part.Possible := by simp [Somewhere]
    have later := @groupByString_go_spec part.leadingString [part] rest
      fun here => leading_of_possible (alone.1 here)
    exact ⟨later.1, fun here => later.2 ((somewhere_cons.1 here).imp alone.2 id)⟩

/-! ### Parts in common -/

theorem possible_of_leadingPart {s part : Shape} (h : s.Possible) (lead : s.leadingPart = some part) :
    part.Possible := by
  unfold leadingPart at lead
  split at lead
  · cases lead
  · cases lead
  · cases lead
    exact (List.forall_mem_cons.1 (possible_cat.1 h)).1
  · cases lead
    exact h

theorem dropLeadingPart_gives (kept : Bool) {s : Shape} (h : s.Possible) :
    Gives Possible (dropLeadingPart kept s) := by
  have nothing : Possible empty := trivial
  by_cases isCat : ∃ first rest noted, s = cat (first :: rest) noted
  · obtain ⟨first, rest, noted, rfl⟩ := isCat
    obtain ⟨-, others⟩ := List.forall_mem_cons.1 (possible_cat.1 h)
    -- a part that is not kept is set aside first
    have dropped {F : Metered Shape} (h : Gives Possible F) :
        Gives Possible (do
          Usage.drop first
          F) :=
      Gives.after fun _ => h
    match rest, others with
    | [], _ =>
      have left : Gives Possible (pure empty) := Gives.pure nothing
      cases kept with
      | true => exact left
      | false => exact dropped left
    | [part], others =>
      have left : Gives Possible (do
          Usage.drop (cat [first, part] noted)
          pure part) :=
        Gives.after fun _ => Gives.pure (others _ (List.mem_singleton_self _))
      cases kept with
      | true => exact left
      | false => exact dropped left
    | second :: third :: more, others =>
      have left : Gives Possible (pure (cat (second :: third :: more) noted)) :=
        Gives.pure (possible_cat.2 others)
      cases kept with
      | true => exact left
      | false => exact dropped left
  · have taken : dropLeadingPart kept s = (do
        if !kept then Usage.drop s
        let _ ← Usage.take
        pure empty) := by
      unfold dropLeadingPart
      split
      · exact absurd ⟨_, _, _, rfl⟩ isCat
      · rfl
    rw [taken]
    cases kept with
    | true => exact Gives.after fun _ => Gives.pure nothing
    | false => exact Gives.after fun _ => Gives.after fun _ => Gives.pure nothing

theorem possible_of_sameChar {a b : Shape} (same : sameChar a b = true) (h : b.Possible) :
    a.Possible := by
  unfold sameChar at same
  split at same
  · simp only [Bool.and_eq_true, beq_iff_eq] at same
    obtain ⟨rfl, fold⟩ := same
    intro code mem
    rw [fold]
    exact h code mem
  · simp only [beq_iff_eq] at same
    subst same
    exact h
  · trivial
  · trivial
  · cases same

theorem possible_of_sameStart {a b : Shape} (same : sameStart a b = true) (h : b.Possible) :
    a.Possible := by
  unfold sameStart at same
  split at same
  · simp only [Bool.and_eq_true, beq_iff_eq] at same
    obtain ⟨⟨⟨⟨-, rfl⟩, -⟩, -⟩, same⟩ := same
    exact h.imp id (possible_of_sameChar same)
  · exact possible_of_sameChar same h

/-- True of a group whose first part is possible, or that has no first part and just one member. -/
def Starts (group : Option Shape × List Shape) : Prop :=
  match group.1 with
  | some first => first.Possible
  | none => ∃ part, group.2 = [part]

theorem starts_single {part : Shape} (h : Somewhere [part]) : Starts (part.leadingPart, [part]) := by
  unfold Starts
  cases lead : part.leadingPart with
  | none => exact ⟨part, rfl⟩
  | some first => exact possible_of_leadingPart (by simpa [Somewhere] using h) lead

theorem groupByPart_go_spec {lead : Option Shape} {members parts : List Shape}
    (h : Somewhere members → Starts (lead, members.reverse)) :
    (∀ group ∈ groupByPart.go lead members parts, Somewhere group.2 → Starts group) ∧
      ((Somewhere members ∨ Somewhere parts) →
        ∃ group ∈ groupByPart.go lead members parts, Somewhere group.2) := by
  have whole {members : List Shape} : Somewhere members.reverse ↔ Somewhere members := by
    simp [Somewhere]
  have alone {part : Shape} : Somewhere [part] ↔ part.Possible := by simp [Somewhere]
  induction parts generalizing lead members with
  | nil =>
    refine ⟨fun group mem some => ?_, fun here => ⟨_, List.mem_singleton_self _, ?_⟩⟩
    · cases List.mem_singleton.1 mem
      exact h (whole.1 some)
    · exact whole.2 (here.resolve_right not_somewhere_nil)
  | cons part rest ih =>
    rw [somewhere_cons]
    have apart (eq : groupByPart.go lead members (part :: rest) =
        (lead, members.reverse) :: groupByPart.go part.leadingPart [part] rest) :
        (∀ group ∈ groupByPart.go lead members (part :: rest), Somewhere group.2 → Starts group) ∧
          ((Somewhere members ∨ part.Possible ∨ Somewhere rest) →
            ∃ group ∈ groupByPart.go lead members (part :: rest), Somewhere group.2) := by
      rw [eq]
      have later := @ih part.leadingPart [part] starts_single
      refine ⟨List.forall_mem_cons.2 ⟨fun here => h (whole.1 here), later.1⟩, fun here => ?_⟩
      rw [List.exists_mem_cons_iff]
      exact here.imp whole.2 fun here => later.2 (here.imp alone.2 id)
    cases lead with
    | none => exact apart rfl
    | some a =>
      cases next : part.leadingPart with
      | none => exact apart (by simp only [groupByPart.go, next])
      | some b =>
        by_cases same : sameStart a b = true
        · have eq : groupByPart.go (some a) members (part :: rest) =
              groupByPart.go (some a) (part :: members) rest := by
            simp only [groupByPart.go, next, same, if_true]
          have later := @ih (some a) (part :: members) fun here =>
            (somewhere_cons.1 here).elim
              (fun here => possible_of_sameStart same (possible_of_leadingPart here next))
              fun others => h others
          rw [eq]
          refine ⟨later.1, fun here => later.2 ?_⟩
          rwa [somewhere_cons, or_assoc, or_left_comm]
        · exact apart (by simp only [groupByPart.go, next, same]; rfl)

theorem groupByPart_spec (parts : List Shape) :
    (∀ group ∈ groupByPart parts, Somewhere group.2 → Starts group) ∧
      (Somewhere parts → ∃ group ∈ groupByPart parts, Somewhere group.2) := by
  cases parts with
  | nil => exact ⟨nofun, fun ⟨_, mem, _⟩ => absurd mem List.not_mem_nil⟩
  | cons part rest =>
    have alone : Somewhere [part] ↔ part.Possible := by simp [Somewhere]
    have later := @groupByPart_go_spec part.leadingPart [part] rest starts_single
    exact ⟨later.1, fun here => later.2 ((somewhere_cons.1 here).imp alone.2 id)⟩

/-! ### Choices -/

theorem joinChars_go_gives {last : Shape} (joined : Bool) {parts : List Shape}
    (h : last.Possible ∨ Somewhere parts) : Gives Somewhere (joinChars.go last joined parts) := by
  have ended {last : Shape} (joined : Bool) (h : last.Possible) :
      (if joined then last.clean else last).Possible := by
    split
    · exact possible_clean h
    · exact h
  induction parts generalizing last joined with
  | nil =>
    obtain here | ⟨_, mem, _⟩ := h
    · exact Gives.pure ⟨_, List.mem_singleton_self _, ended joined here⟩
    · cases mem
  | cons part rest ih =>
    rw [somewhere_cons] at h
    unfold joinChars.go
    split
    · rename_i s t first second
      refine Gives.after fun _ => ih true ?_
      obtain here | here | others := h
      · exact .inl (possible_merge first second (.inl here))
      · exact .inl (possible_merge first second (.inr here))
      · exact .inr others
    · obtain here | others := h
      · exact Gives.after fun _ => Gives.pure (somewhere_cons.2 (.inl (ended joined here)))
      · exact (ih false others).bind fun _ others => Gives.pure (somewhere_cons.2 (.inr others))

theorem joinChars_gives {parts : List Shape} (h : Somewhere parts) :
    Gives Somewhere (joinChars parts) := by
  cases parts with
  | nil => exact Gives.pure h
  | cons part rest => exact joinChars_go_gives false (somewhere_cons.1 h)

theorem somewhere_joinEmpty {parts : List Shape} (h : Somewhere parts) :
    Somewhere (joinEmpty parts) := by
  fun_induction joinEmpty parts with
  | case1 rest ih =>
    refine ih (somewhere_cons.2 ?_)
    exact (somewhere_cons.1 h).elim .inl somewhere_cons.1
  | case2 part rest sole ih =>
    exact somewhere_cons.2 ((somewhere_cons.1 h).imp id ih)
  | case3 => exact h

/-- What alternatives have in common, in front of a choice between what is left of them. -/
theorem factored_gives {depth : Nat}
    (ih : ∀ {parts : List Shape}, Somewhere parts → Gives Possible (choose depth parts))
    {first : Shape} (here : first.Possible) {rests : List Shape} (h : Somewhere rests) :
    Gives Possible (do
      let suffix ← choose depth rests
      pure (cat [first, suffix] (← Usage.take))) :=
  (ih h).bind fun _ possible => Gives.after fun _ => Gives.pure <| possible_cat.2 <|
    List.forall_mem_cons.2 ⟨here, List.forall_mem_singleton.2 possible⟩

/-- What some of several related shapes are, if some of those that they come from are. -/
theorem somewhere_of_forall₂ {α : Type} {P : α → Prop} {groups : List α} {shapes : List Shape}
    (h : List.Forall₂ (fun group s => P group → s.Possible) groups shapes)
    (here : ∃ group ∈ groups, P group) : Somewhere shapes := by
  induction h with
  | nil =>
    obtain ⟨_, mem, _⟩ := here
    cases mem
  | cons first _ ih =>
    rw [List.exists_mem_cons_iff] at here
    exact somewhere_cons.2 (here.imp first ih)

/-- What is left of alternatives behind what they have in common. -/
theorem rests_give {members : List Shape} {drop : Shape → Metered Shape}
    (each : ∀ {s : Shape}, s.Possible → Gives Possible (drop s)) :
    Gives (List.Forall₂ (fun member rest => member.Possible → rest.Possible) members)
      (members.mapM fun member => do
        weighRest (← drop member)) := by
  refine Gives.mapM members fun member _ => ?_
  by_cases possible : member.Possible
  · exact (each possible).bind fun _ left u _ => weighRest_gives left u
  · exact fun _ h => absurd h possible

/-- A choice between several shapes one of which is possible is possible. -/
theorem choose_gives (depth : Nat) {parts : List Shape} (h : Somewhere parts) :
    Gives Possible (choose depth parts) := by
  induction depth generalizing parts with
  | zero => exact Gives.pure (possible_alt.2 h)
  | succ depth ih =>
    by_cases single : ∃ part, parts = [part]
    · obtain ⟨part, rfl⟩ := single
      obtain ⟨_, mem, possible⟩ := h
      cases List.mem_singleton.1 mem
      exact Gives.pure possible
    rw [choose]
    rotate_left
    · exact fun part eq => single ⟨part, eq⟩
    refine Gives.after fun noted => (flatten_gives h).bind fun flat here => ?_
    obtain ⟨leading, covered⟩ := groupByString_spec flat
    refine (Gives.mapM (R := fun group s => Somewhere group.2 → s.Possible) _ ?_).bind
      fun strings related => ?_
    · rintro ⟨lead, members⟩ mem
      by_cases here : Somewhere members
      · have string (noted : Option Nat) : (literal lead.1 { fold := lead.2 } noted).Possible :=
          leading _ mem here
        dsimp only
        split
        · exact Gives.pure fun here => by simpa [Somewhere] using here
        · refine Gives.after fun noted => (rests_give (dropLeadingString_gives _)).bind
            fun rests left => ?_
          exact fun u _ => factored_gives ih (string noted) (somewhere_of_forall₂ left here) u
      · exact fun _ some => absurd some here
    have strings_possible := somewhere_of_forall₂ related (covered here)
    obtain ⟨starts, covered⟩ := groupByPart_spec strings
    refine (Gives.mapM (R := fun group s => Somewhere group.2 → s.Possible) _ ?_).bind
      fun parts related => ?_
    · rintro ⟨lead, members⟩ mem
      by_cases here : Somewhere members
      · dsimp only
        split
        · rename_i first member next others
          have first_possible : first.Possible := starts _ mem here
          rw [somewhere_cons] at here
          by_cases kept : member.Possible
          · refine (dropLeadingPart_gives true kept).bind fun _ left => ?_
            refine (weighRest_gives left).bind fun _ left => Gives.after fun rests => ?_
            exact fun u _ => factored_gives ih first_possible (somewhere_cons.2 (.inl left)) u
          · refine Gives.after fun _ => Gives.after fun _ =>
              (rests_give (dropLeadingPart_gives false)).bind fun rests left => ?_
            have some := somewhere_of_forall₂ left (here.resolve_left kept)
            exact fun u _ => factored_gives ih first_possible (somewhere_cons.2 (.inr some)) u
        · rename_i part rest alone
          refine Gives.pure fun here => ?_
          cases lead with
          | some first =>
            cases rest with
            | nil => simpa [Somewhere] using here
            | cons next others => exact (alone first next others rfl rfl).elim
          | none =>
            obtain ⟨_, single⟩ := starts _ mem here
            cases single
            simpa [Somewhere] using here
        · exact Gives.pure fun _ => trivial
      · exact fun _ some => absurd some here
    refine (joinChars_gives (somewhere_of_forall₂ related (covered strings_possible))).bind
      fun joined possible => ?_
    have left := somewhere_joinEmpty possible
    split
    · rename_i part eq
      rw [eq] at left
      exact Gives.after fun _ => Gives.pure (by simpa [Somewhere] using left)
    · exact Gives.pure (possible_alt.2 left)

end Shape

end Pattern

end Rulebook

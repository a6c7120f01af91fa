import Rulebook.Proofs.Pattern.Passage
import Rulebook.Proofs.Pattern.Sketch
import Rulebook.Proofs.Text.CharSet
import Rulebook.Pattern.Lead

/-!
# Expressions and shapes that can match

A surrogate is not a character of any text. `Expr.Possible` asks whether an expression could match
something if all its conditions held, and is true of every expression that has a passage. The same
is asked of shapes: joining strings and merging characters never puts a surrogate in the way of what
can match.
-/

namespace Rulebook

/-! ### Sets -/

namespace CharSet

/-- True of a set that holds a character. -/
def Possible (s : CharSet) : Prop :=
  ∃ code, Pattern.Net.isSurrogate code = false ∧ s.contains code = true

theorem Possible.union {s t : CharSet} (h : s.Possible ∨ t.Possible) : (s.union t).Possible := by
  obtain ⟨code, voiced, holds⟩ | ⟨code, voiced, holds⟩ := h
  · exact ⟨code, voiced, contains_union (.inl holds)⟩
  · exact ⟨code, voiced, contains_union (.inr holds)⟩

theorem possible_all : all.Possible := ⟨0x41, rfl, rfl⟩

theorem possible_notBreak : notBreak.Possible := ⟨0x41, rfl, rfl⟩

end CharSet

namespace CaseFold

/-- A surrogate is alone in its class. -/
theorem not_isSurrogate_of_mem {chars : List Nat} (mem : chars ∈ classes) {code : Nat}
    (here : code ∈ chars) : Pattern.Net.isSurrogate code = false := by
  have all : classes.all (·.all (!Pattern.Net.isSurrogate ·)) = true := by decide +kernel
  simpa using List.all_eq_true.1 (List.all_eq_true.1 all chars mem) code here

/-- The first character of a class stands for the class. -/
theorem possible_head {code : Nat} (h : (alike true code).Possible) :
    (alike true ((orbit code).headD code)).Possible := by
  refine ⟨_, ?_, contains_alike_self _ _⟩
  obtain alone | ⟨mem, here⟩ := orbit_cases code
  · obtain ⟨other, voiced, holds⟩ := h
    rw [alike, if_pos rfl, alone] at holds
    have single : CharSet.ofRanges [(code, code)] = .single code := rfl
    rw [List.map_singleton, single] at holds
    rw [alone, List.headD_cons, ← CharSet.contains_single.1 holds]
    exact voiced
  · cases chars : orbit code with
    | nil =>
      rw [chars] at here
      cases here
    | cons first rest =>
      refine not_isSurrogate_of_mem mem ?_
      rw [chars]
      exact List.mem_cons_self ..

end CaseFold

theorem Scalar.not_isSurrogate (s : Scalar) : Pattern.Net.isSurrogate s.code = false := by
  have valid : s.code.isValidChar := s.char.valid
  unfold Nat.isValidChar at valid
  unfold Pattern.Net.isSurrogate
  simp only [Bool.and_eq_false_iff, decide_eq_false_iff_not]
  omega

namespace Pattern

/-! ### Expressions -/

namespace Expr

/-- True of an expression that could match some text if all its conditions held. -/
def Possible : Expr → Prop
  | empty => True
  | one set => set.Possible
  | test _ => True
  | group _ _ e => e.Possible
  | cat a b => a.Possible ∧ b.Possible
  | alt a b => a.Possible ∨ b.Possible
  | star _ _ => True
  | plus _ e => e.Possible
  | opt _ _ => True
  | times min _ _ e => min = 0 ∨ e.Possible

/-- What has been passed is possible. -/
theorem possible_of_passes {e : Expr} {c d : Cursor} {m : Marks} (h : e.passes c d m) :
    e.Possible := by
  induction e generalizing c d m with
  | empty | test | star | opt => trivial
  | one set =>
    obtain ⟨s, -, -, holds, -⟩ := h
    exact ⟨s.code, s.not_isSurrogate, holds⟩
  | group _ _ e ih =>
    obtain ⟨inner, here, -⟩ := h
    exact ih here
  | cat a b iha ihb =>
    obtain ⟨_, _, _, first, second, -⟩ := h
    exact ⟨iha first, ihb second⟩
  | alt a b iha ihb => exact h.imp iha ihb
  | plus _ e ih =>
    obtain ⟨n, some_round, rounds⟩ := h
    obtain ⟨n, rfl⟩ := Nat.exists_eq_add_of_le' some_round
    obtain ⟨_, _, _, first, -⟩ := rounds
    exact ih first
  | times min max _ e ih =>
    obtain ⟨n, allowed, rounds⟩ := h
    cases n with
    | zero => exact .inl (Nat.le_zero.1 allowed.1)
    | succ n =>
      obtain ⟨_, _, _, first, -⟩ := rounds
      exact .inr (ih first)

theorem possible_unnumbered {e : Expr} : e.unnumbered.Possible ↔ e.Possible := by
  induction e with
  | empty | one | test | star | opt => rfl
  | group _ _ _ ih | plus _ _ ih => exact ih
  | cat _ _ ih ih' => exact and_congr ih ih'
  | alt _ _ ih ih' => exact or_congr ih ih'
  | times _ _ _ _ ih => exact or_congr Iff.rfl ih

theorem possible_concat {es : List Expr} : (concat es).Possible ↔ ∀ e ∈ es, e.Possible := by
  fun_induction concat es with
  | case1 => simp [Possible]
  | case2 e => simp
  | case3 e rest several ih => simp [Possible, ih]

theorem possible_choice {es : List Expr} (several : es ≠ []) :
    (choice es).Possible ↔ ∃ e ∈ es, e.Possible := by
  fun_induction choice es with
  | case1 => exact absurd rfl several
  | case2 e => simp
  | case3 e rest more ih => simp [Possible, ih more]

end Expr

/-! ### Shapes -/

/-- True of a count that lets a repetition pass over nothing. -/
def Count.mayBeNone : Count → Prop
  | .star => True
  | .plus => False
  | .opt => True
  | .times min _ => min = 0

namespace Shape

mutual

/-- True of a shape that could match some text if all its conditions held. -/
def Possible : Shape → Prop
  | literal codes flags _ => ∀ code ∈ codes, (CaseFold.alike flags.fold code).Possible
  | set members => members.Possible
  | captured _ body => body.Possible
  | repeated count _ body => count.mayBeNone ∨ body.Possible
  | cat parts _ => AllPossible parts
  | alt parts _ => SomePossible parts
  | _ => True

/-- True if all of several shapes are possible. -/
def AllPossible : List Shape → Prop
  | [] => True
  | part :: rest => part.Possible ∧ AllPossible rest

/-- True if one of several shapes is possible. -/
def SomePossible : List Shape → Prop
  | [] => False
  | part :: rest => part.Possible ∨ SomePossible rest

end

theorem allPossible_iff {parts : List Shape} :
    AllPossible parts ↔ ∀ part ∈ parts, part.Possible := by
  induction parts with
  | nil => simp [AllPossible]
  | cons part rest ih => simp [AllPossible, ih]

theorem somePossible_iff {parts : List Shape} :
    SomePossible parts ↔ ∃ part ∈ parts, part.Possible := by
  induction parts with
  | nil => simp [SomePossible]
  | cons part rest ih => simp [SomePossible, ih]

theorem possible_cat {parts : List Shape} {noted : Option Nat} :
    (cat parts noted).Possible ↔ ∀ part ∈ parts, part.Possible := allPossible_iff

theorem possible_alt {parts : List Shape} {noted : Option Nat} :
    (alt parts noted).Possible ↔ ∃ part ∈ parts, part.Possible := somePossible_iff

mutual

theorem possible_bare : ∀ s : Shape, s.bare.Possible ↔ s.Possible
  | empty | set _ | notBreak | any | test _ | literal _ _ _ => Iff.rfl
  | captured _ body => possible_bare body
  | repeated _ _ body => or_congr Iff.rfl (possible_bare body)
  | cat parts _ => allPossible_bares parts
  | alt parts _ => somePossible_bares parts

theorem allPossible_bares : ∀ parts : List Shape, AllPossible (bares parts) ↔ AllPossible parts
  | [] => Iff.rfl
  | part :: rest => and_congr (possible_bare part) (allPossible_bares rest)

theorem somePossible_bares :
    ∀ parts : List Shape, SomePossible (bares parts) ↔ SomePossible parts
  | [] => Iff.rfl
  | part :: rest => or_congr (possible_bare part) (somePossible_bares rest)

end

theorem Like.possible {s t : Shape} (h : Like s t) : s.Possible ↔ t.Possible := by
  rw [← possible_bare s, h, possible_bare]

/-! ### One character -/

theorem possible_ofChar {flags : Flags} {code : Nat}
    (h : (CaseFold.alike flags.fold code).Possible) : (ofChar flags code).Possible := by
  intro other mem
  cases List.mem_singleton.1 mem
  cases fold : flags.fold with
  | false =>
    rw [fold] at h
    exact h
  | true =>
    rw [fold] at h
    exact CaseFold.possible_head h

/-- A set that stands for one character, or for one in two cases, holds no others. -/
theorem mem_of_singleCode? {members : CharSet} {code : Nat} {fold : Bool}
    (single : singleCode? members = some (code, fold)) {other : Nat}
    (holds : members.contains other = true) : (CaseFold.alike fold code).contains other = true := by
  obtain ⟨ranges⟩ := members
  rw [CharSet.contains_iff] at holds
  obtain ⟨range, mem, low, high⟩ := holds
  unfold singleCode? at single
  split at single
  · rename_i a b eq
    dsimp only at eq
    subst eq
    cases List.mem_singleton.1 mem
    split at single
    · rename_i same
      simp only [beq_iff_eq] at same
      cases single
      obtain rfl : other = code := by omega
      exact CaseFold.contains_alike_self ..
    · split at single
      · rename_i pair
        simp only [Bool.and_eq_true, beq_iff_eq] at pair
        cases single
        refine CaseFold.contains_alike ?_
        rw [pair.2]
        simp only [List.mem_cons, List.not_mem_nil, or_false]
        omega
      · cases single
  · rename_i a b c d eq
    dsimp only at eq
    subst eq
    split at single
    · rename_i pair
      simp only [Bool.and_eq_true, beq_iff_eq] at pair
      cases single
      refine CaseFold.contains_alike ?_
      rw [pair.2]
      simp only [List.mem_cons, List.not_mem_nil, or_false] at mem ⊢
      obtain rfl | rfl := mem
      · left
        dsimp only at low high
        omega
      · right
        dsimp only at low high
        omega
    · cases single
  · cases single

theorem possible_asString (flags : Flags) {s : Shape} (h : s.Possible) :
    (s.asString flags).Possible := by
  cases s with
  | set members =>
    rw [asString]
    split
    · rename_i code fold single
      obtain ⟨other, voiced, holds⟩ := h
      intro code' mem
      cases List.mem_singleton.1 mem
      exact ⟨other, voiced, mem_of_singleCode? single holds⟩
    · exact h
  | _ => exact h

theorem possible_clean {s : Shape} (h : s.Possible) : s.clean.Possible := by
  cases s with
  | set members =>
    rw [clean]
    split
    · trivial
    · split
      · trivial
      · exact h
  | _ => exact h

theorem possible_of_oneOf? {s : Shape} {members : CharSet} (h : s.oneOf? = some members) :
    s.Possible ↔ members.Possible := by
  unfold oneOf? at h
  split at h
  · cases h
    exact ⟨fun h => h _ (List.mem_singleton_self _), fun h code mem => by
      cases List.mem_singleton.1 mem
      exact h⟩
  · cases h
    rfl
  · cases h
    exact ⟨fun _ => CharSet.possible_notBreak, fun _ => trivial⟩
  · cases h
    exact ⟨fun _ => CharSet.possible_all, fun _ => trivial⟩
  · cases h

/-- One character that is of one of two shapes is possible if one of them is. -/
theorem possible_merge {a b : Shape} {s t : CharSet} (first : a.oneOf? = some s)
    (second : b.oneOf? = some t) (h : a.Possible ∨ b.Possible) : (merge a b s t).Possible := by
  have joined : (Shape.set (s.union t)).Possible :=
    CharSet.Possible.union (h.imp (possible_of_oneOf? first).1 (possible_of_oneOf? second).1)
  unfold merge
  split
  · trivial
  · trivial
  · split <;> trivial
  · split <;> trivial
  · rename_i x f m y g n
    split
    · rename_i same
      simp only [Bool.and_eq_true, beq_iff_eq] at same
      obtain ⟨rfl, rfl⟩ := same
      exact h.elim id id
    · exact joined
  · exact joined

/-! ### Strings -/

theorem possible_joinTo {part : Shape} {rest : List Shape} (here : part.Possible)
    (h : ∀ p ∈ rest, p.Possible) : ∀ p ∈ joinTo part rest, p.Possible := by
  have apart : ∀ p ∈ part :: rest, p.Possible := List.forall_mem_cons.2 ⟨here, h⟩
  unfold joinTo
  split
  · rename_i a f noted b g m rest
    split
    · rename_i same
      simp only [beq_iff_eq] at same
      obtain ⟨next, h⟩ := List.forall_mem_cons.1 h
      refine List.forall_mem_cons.2 ⟨fun code mem => ?_, h⟩
      obtain mem | mem := List.mem_append.1 mem
      · exact here code mem
      · rw [same]
        exact next code mem
    · exact apart
  · exact apart

theorem possible_joinStrings {parts : List Shape} (h : ∀ p ∈ parts, p.Possible) :
    ∀ p ∈ joinStrings parts, p.Possible := by
  induction parts with
  | nil => exact h
  | cons part rest ih =>
    rw [joinStrings_cons]
    obtain ⟨here, h⟩ := List.forall_mem_cons.1 h
    exact possible_joinTo here (ih h)

theorem possible_links {part : Shape} (h : part.Possible) : ∀ p ∈ part.links, p.Possible := by
  cases part with
  | cat parts noted => exact possible_cat.1 h
  | _ =>
    intro p mem
    cases List.mem_singleton.1 mem
    exact h

theorem possible_sequence {parts : List Shape} (h : ∀ p ∈ parts, p.Possible) :
    (sequence parts).Possible := by
  have joined := possible_joinStrings h
  unfold sequence
  split
  · trivial
  · rename_i part eq
    rw [eq] at joined
    exact joined part (List.mem_singleton_self _)
  · refine possible_cat.2 fun p mem => ?_
    obtain ⟨part, mem, below⟩ := List.mem_flatMap.1 mem
    exact possible_links (joined part mem) p below

theorem possible_also {shape : Shape} {choices : List Shape}
    (h : shape.Possible ∨ ∃ s ∈ choices, s.Possible) : ∃ s ∈ shape.also choices, s.Possible := by
  cases choices with
  | nil => exact ⟨shape, List.mem_singleton_self _, by simpa using h⟩
  | cons last before =>
    rw [also]
    split
    · rename_i s t first second
      simp only [List.mem_cons, exists_eq_or_imp] at h ⊢
      obtain here | here | others := h
      · exact .inl (possible_merge first second (.inr here))
      · exact .inl (possible_merge first second (.inl here))
      · exact .inr others
    · simpa only [List.mem_cons, exists_eq_or_imp] using h

end Shape

end Pattern

end Rulebook

import Rulebook.Proofs.Pattern.Finding

/-!
# Spans of groups

Whatever a compiled pattern finds lies in the text, and whatever its groups took lies in the match:
`Regex.find?_fits` and `Regex.findAll_fits`. The reason is that no path leaves a group that it has
entered without noting where the group ends. This is also true of a path through the end part of a
program, which is what follows a lead.
-/

namespace Rulebook

namespace Pattern

namespace Marks

/-- True if all offsets lie between two. -/
def Between (low high : Nat) (m : Marks) : Prop := ∀ mark ∈ m, low ≤ mark.2 ∧ mark.2 ≤ high

/-- True if a group that has started has ended too, and not before. -/
def Closed (m : Marks) : Prop :=
  ∀ i start, m.lookup (Expr.slot i) = some start →
    ∃ stop, m.lookup (Expr.slot i + 1) = some stop ∧ start ≤ stop

theorem mem_of_lookup {m : Marks} {slot offset : Nat} (h : m.lookup slot = some offset) :
    (slot, offset) ∈ m := by
  induction m with
  | nil => cases h
  | cons mark m ih =>
    obtain ⟨s, o⟩ := mark
    rw [List.lookup_cons] at h
    split at h
    · rename_i same
      cases h
      rw [beq_iff_eq.1 same]
      exact List.mem_cons_self ..
    · exact List.mem_cons_of_mem _ (ih h)

theorem Between.of_lookup {low high slot offset : Nat} {m : Marks} (h : Between low high m)
    (found : m.lookup slot = some offset) : low ≤ offset ∧ offset ≤ high :=
  h _ (mem_of_lookup found)

theorem closed_nil : Closed [] := nofun

theorem Closed.append {low mid high : Nat} {m m' : Marks} (first : Closed m) (second : Closed m')
    (within : Between low mid m) (within' : Between mid high m') : Closed (m' ++ m) := by
  intro i start h
  rw [List.lookup_append] at h ⊢
  cases found : m'.lookup (Expr.slot i) with
  | some start' =>
    rw [found] at h
    cases h
    obtain ⟨stop, ended, le⟩ := second i start found
    exact ⟨stop, by rw [ended]; rfl, le⟩
  | none =>
    rw [found] at h
    obtain ⟨stop, ended, le⟩ := first i start h
    cases later : m'.lookup (Expr.slot i + 1) with
    | some stop' =>
      have := within.of_lookup ended
      have := within'.of_lookup later
      exact ⟨stop', rfl, by omega⟩
    | none => exact ⟨stop, ended, le⟩

theorem slot_injective {i j : Nat} (h : Expr.slot i = Expr.slot j) : i = j := by
  simp only [Expr.slot] at h
  omega

theorem slot_ne_succ (i j : Nat) : Expr.slot i ≠ Expr.slot j + 1 := by
  simp only [Expr.slot]
  omega

theorem lookup_slot_cons (i index offset : Nat) (m : Marks) :
    List.lookup (Expr.slot i) ((Expr.slot index + 1, offset) :: m) = m.lookup (Expr.slot i) := by
  rw [List.lookup_cons, beq_false_of_ne (slot_ne_succ i index)]

theorem lookup_succ_cons (i index offset : Nat) (m : Marks) :
    List.lookup (Expr.slot i + 1) ((Expr.slot index + 1, offset) :: m) =
      if i = index then some offset else m.lookup (Expr.slot i + 1) := by
  rw [List.lookup_cons]
  by_cases same : i = index
  · simp [same]
  · have other : Expr.slot i ≠ Expr.slot index := fun h => same (slot_injective h)
    have apart : (Expr.slot i + 1 == Expr.slot index + 1) = false := by simp [other]
    rw [apart, if_neg same]

/-- Marks after which a group ends. -/
theorem Closed.ended {low high : Nat} {m : Marks} (h : Closed m) (within : Between low high m)
    (index : Nat) : Closed ((Expr.slot index + 1, high) :: m) := by
  intro i start found
  rw [lookup_slot_cons] at found
  rw [lookup_succ_cons]
  split
  · exact ⟨high, rfl, (within.of_lookup found).2⟩
  · exact h i start found

/-- Marks between the start and the end of a group. -/
theorem Closed.group {low high : Nat} {m : Marks} (h : Closed m) (within : Between low high m)
    (le : low ≤ high) (index : Nat) :
    Closed ((Expr.slot index + 1, high) :: (m ++ [(Expr.slot index, low)])) := by
  intro i start found
  rw [lookup_slot_cons, List.lookup_append] at found
  rw [lookup_succ_cons]
  split
  · refine ⟨high, rfl, ?_⟩
    cases inner : m.lookup (Expr.slot i) with
    | some start' =>
      rw [inner] at found
      cases found
      exact (within.of_lookup inner).2
    | none =>
      rw [inner, Option.none_or] at found
      obtain ⟨-, rfl⟩ := Prod.mk.inj (List.mem_singleton.1 (mem_of_lookup found))
      exact le
  · rename_i other
    have apart : Expr.slot i ≠ Expr.slot index := fun same => other (slot_injective same)
    have none : List.lookup (Expr.slot i) [(Expr.slot index, low)] = none := by
      rw [List.lookup_cons, beq_false_of_ne apart]
      rfl
    rw [none, Option.or_none] at found
    obtain ⟨stop, ended, le⟩ := h i start found
    exact ⟨stop, by rw [List.lookup_append, ended]; rfl, le⟩

end Marks

/-! ### Paths -/

namespace Path

variable {n : Nat} {k : List Step} {c d : Cursor} {m : Marks}

theorem offset_le (h : Path n k c d m) : c.offset ≤ d.offset :=
  Cursor.offset_le_of_onward h.mem_onward

/-- What is noted on a path is noted between its start and its end. -/
theorem between (h : Path n k c d m) : m.Between c.offset d.offset := by
  induction h with
  | done => nofun
  | @one n set k c d m s rest here on path ih =>
    intro mark mem
    have later := ih mark mem
    exact ⟨Nat.le_trans (Nat.le_add_right _ _) later.1, later.2⟩
  | test _ _ ih => exact ih
  | @mark n slot k c d m path ih =>
    intro mark mem
    obtain mem | mem := List.mem_append.1 mem
    · exact ih mark mem
    · cases List.mem_singleton.1 mem
      exact ⟨Nat.le_refl _, path.offset_le⟩
  | first _ _ ih => exact ih
  | second _ _ ih => exact ih

end Path

/-- True of steps on no path through which a group is left open. -/
def Sealed (k : List Step) : Prop := ∀ n c d m, Path n k c d m → Marks.Closed m

namespace Sealed

variable {a b : List Step}

theorem nil : Sealed [] := by
  intro n c d m path
  obtain ⟨-, rfl⟩ := path.of_nil
  exact Marks.closed_nil

theorem append (first : Sealed a) (second : Sealed b) : Sealed (a ++ b) := by
  intro n c d m path
  obtain ⟨n₁, n₂, e, m₁, m₂, -, before, after, rfl⟩ := path.split
  exact (first _ _ _ _ before).append (second _ _ _ _ after) before.between after.between

theorem one (set : CharSet) : Sealed [.one set] := by
  intro n c d m path
  obtain ⟨s, rest, n', -, -, -, later⟩ := path.of_one
  exact nil _ _ _ _ later

theorem test (condition : Assertion) : Sealed [.test condition] := by
  intro n c d m path
  obtain ⟨n', -, -, later⟩ := path.of_test
  exact nil _ _ _ _ later

theorem fork (first : Sealed a) (second : Sealed b) (label : Nat) : Sealed [.fork label a b] := by
  intro n c d m path
  obtain ⟨n', -, path | path⟩ := path.of_choice rfl
  · exact first n' c d m (by simpa using path)
  · exact second n' c d m (by simpa using path)

theorem prefer (body : Sealed a) (label : Nat) (greedy : Bool) :
    Sealed [.prefer label greedy a []] := by
  cases greedy with
  | true => exact body.fork nil label
  | false => exact nil.fork body label

/-- A loop, by induction on the length of the path. -/
theorem loop (body : Sealed a) (label : Nat) (greedy : Bool) : Sealed [.loop label greedy a] := by
  intro n c d m path
  induction n using Nat.strongRecOn generalizing c d m with
  | _ n ih =>
    have again {n'} (lt : n' < n) (path : Path n' (a ++ [Step.loop label greedy a]) c d m) :
        m.Closed := by
      obtain ⟨n₁, n₂, e, m₁, m₂, rfl, before, after, rfl⟩ := path.split
      exact (body _ _ _ _ before).append (ih n₂ (by omega) _ _ _ after) before.between after.between
    cases greedy with
    | true =>
      obtain ⟨n', lt, path | path⟩ := path.of_choice rfl
      · exact again lt path
      · exact nil _ _ _ _ path
    | false =>
      obtain ⟨n', lt, path | path⟩ := path.of_choice rfl
      · exact nil _ _ _ _ path
      · exact again lt path

/-- A group with all that is in it. -/
theorem group (body : Sealed a) (index : Nat) :
    Sealed (.mark (Expr.slot index) :: (a ++ [Step.mark (Expr.slot index + 1)])) := by
  intro n c d m path
  obtain ⟨n', m', -, rfl, inside⟩ := path.of_mark
  obtain ⟨n₁, n₂, e, m₁, m₂, -, before, after, rfl⟩ := inside.split
  obtain ⟨n₃, m₃, -, rfl, last⟩ := after.of_mark
  obtain ⟨rfl, rfl⟩ := last.of_nil
  simpa using (body _ _ _ _ before).group before.between before.offset_le index

/-- The end part of a group. -/
theorem ended (body : Sealed a) (index : Nat) : Sealed (a ++ [Step.mark (Expr.slot index + 1)]) := by
  intro n c d m path
  obtain ⟨n₁, n₂, e, m₁, m₂, -, before, after, rfl⟩ := path.split
  obtain ⟨n₃, m₃, -, rfl, last⟩ := after.of_mark
  obtain ⟨rfl, rfl⟩ := last.of_nil
  exact (body _ _ _ _ before).ended before.between index

end Sealed

/-- True of a builder no end part of whose programs leaves a group open. -/
def Builder.Sealed (b : Builder) : Prop := ∀ label k, k <:+ (b label).1 → Pattern.Sealed k

namespace Builder

variable {a b : Builder}

theorem sealed_nil : nil.Sealed := by
  intro label k suffix
  rw [List.suffix_nil.1 suffix]
  exact .nil

/-- A program of one step has no end part but itself. -/
theorem sealed_single {b : Builder} (h : ∀ label, ∃ s, (b label).1 = [s] ∧ Pattern.Sealed [s]) :
    b.Sealed := by
  intro label k suffix
  obtain ⟨s, eq, single⟩ := h label
  rw [eq] at suffix
  obtain rfl | suffix := List.suffix_cons_iff.1 suffix
  · exact single
  · rw [List.suffix_nil.1 suffix]
    exact .nil

theorem sealed_of {label : Nat} (h : a.Sealed) : Pattern.Sealed (a label).1 :=
  h label _ List.suffix_rfl

theorem suffix_append {xs ys k : List Step} (h : k <:+ xs ++ ys) :
    k <:+ ys ∨ ∃ t, k = t ++ ys ∧ t <:+ xs := by
  obtain ⟨before, eq⟩ := h
  obtain ⟨more, rfl, rfl⟩ | ⟨more, rfl, rfl⟩ := List.append_eq_append_iff.1 eq
  · exact .inr ⟨more, rfl, before, rfl⟩
  · exact .inl ⟨more, rfl⟩

theorem sealed_suffix_append {xs ys k : List Step}
    (first : ∀ k, k <:+ xs → Pattern.Sealed k) (second : ∀ k, k <:+ ys → Pattern.Sealed k)
    (suffix : k <:+ xs ++ ys) : Pattern.Sealed k := by
  obtain within | ⟨t, rfl, part⟩ := suffix_append suffix
  · exact second k within
  · exact (first t part).append (second ys List.suffix_rfl)

theorem sealed_append (ha : a.Sealed) (hb : b.Sealed) : (append a b).Sealed :=
  fun label _ suffix => sealed_suffix_append (ha label) (hb (a label).2) suffix

theorem sealed_copies (ha : a.Sealed) (n : Nat) : (copies n a).Sealed := by
  induction n with
  | zero => exact sealed_nil
  | succ n ih => exact sealed_append ha ih

theorem sealed_choice (ha : a.Sealed) (hb : b.Sealed) : (choice a b).Sealed :=
  sealed_single fun _ => ⟨_, rfl, .fork (sealed_of ha) (sealed_of hb) _⟩

theorem sealed_opt (greedy : Bool) (ha : a.Sealed) : (opt greedy a).Sealed :=
  sealed_single fun _ => ⟨_, rfl, .prefer (sealed_of ha) _ greedy⟩

theorem sealed_plus (greedy : Bool) (ha : a.Sealed) : (plus greedy a).Sealed := by
  intro label k suffix
  have looped := sealed_single (b := fun label => ([.loop (a label).2 greedy (a label).1], 0))
    fun label => ⟨_, rfl, .loop (sealed_of ha) _ greedy⟩
  exact sealed_suffix_append (ha label) (looped label) suffix

theorem sealed_star (greedy nullable : Bool) (ha : a.Sealed) :
    (star greedy nullable a).Sealed := by
  unfold star
  split
  · exact sealed_opt greedy (sealed_plus greedy ha)
  · exact sealed_single fun label => ⟨_, rfl, .loop (sealed_of ha) _ greedy⟩

theorem sealed_upTo (greedy : Bool) (ha : a.Sealed) (n : Nat) : (upTo greedy a n).Sealed := by
  induction n with
  | zero => exact sealed_nil
  | succ n ih => exact sealed_opt greedy (sealed_append ha ih)

theorem sealed_times (greedy nullable : Bool) (ha : a.Sealed) (min : Nat) (max : Option Nat) :
    (times greedy nullable a min max).Sealed := by
  cases max with
  | none =>
    cases min with
    | zero => exact sealed_star greedy nullable ha
    | succ n => exact sealed_append (sealed_copies ha n) (sealed_plus greedy ha)
  | some max => exact sealed_append (sealed_copies ha min) (sealed_upTo greedy ha (max - min))

theorem sealed_group (index : Nat) (ha : a.Sealed) :
    (append (step (.mark (Expr.slot index)))
      (append a (step (.mark (Expr.slot index + 1))))).Sealed := by
  intro label k suffix
  obtain rfl | suffix := List.suffix_cons_iff.1 suffix
  · exact (sealed_of ha).group index
  · have suffix : k <:+ (a label).1 ++ [Step.mark (Expr.slot index + 1)] := suffix
    obtain within | ⟨t, rfl, part⟩ := suffix_append suffix
    · obtain rfl | within := List.suffix_cons_iff.1 within
      · exact Sealed.nil.ended index
      · rw [List.suffix_nil.1 within]
        exact .nil
    · exact (ha label t part).ended index

end Builder

/-- No path through a program, or through an end part of it, leaves a group open. -/
theorem Expr.sealed_build (e : Expr) : e.build.Sealed := by
  induction e with
  | empty => exact Builder.sealed_nil
  | one set => exact Builder.sealed_single fun _ => ⟨_, rfl, .one set⟩
  | test condition => exact Builder.sealed_single fun _ => ⟨_, rfl, .test condition⟩
  | group index name e ih => exact Builder.sealed_group index ih
  | cat a b ha hb => exact Builder.sealed_append ha hb
  | alt a b ha hb => exact Builder.sealed_choice ha hb
  | star greedy e ih => exact Builder.sealed_star greedy e.nullable ih
  | plus greedy e ih => exact Builder.sealed_plus greedy ih
  | opt greedy e ih => exact Builder.sealed_opt greedy ih
  | times min max greedy e ih => exact Builder.sealed_times greedy e.nullable ih min max

/-! ### Compiled patterns -/

/-- True of a match in a text of some length that lies in the text, and whose groups lie in it. -/
structure Program.Found.Fits (f : Program.Found) (length : Nat) : Prop where
  start_le : f.start ≤ f.finish
  finish_le : f.finish ≤ length
  group : ∀ {number start stop}, f.group? number = some (start, stop) →
    f.start ≤ start ∧ start ≤ stop ∧ stop ≤ f.finish

/-- A path through steps that leave no group open gives a match whose groups lie in it. -/
theorem Path.fits {n : Nat} {k : List Step} {c : Cursor} {f : Program.Found}
    (shut : Sealed k) (path : Path n k c f.stop f.marks) (start : f.start ≤ c.offset)
    {length : Nat} (finish : f.finish ≤ length) : f.Fits length where
  start_le := Nat.le_trans start path.offset_le
  finish_le := finish
  group {number start stop} h := by
    unfold Program.Found.group? at h
    split at h
    · rename_i o p started ended
      cases h
      obtain ⟨stop', ended', le⟩ := shut _ _ _ _ path number start started
      rw [ended] at ended'
      cases ended'
      have first := path.between.of_lookup started
      have second := path.between.of_lookup ended
      exact ⟨by omega, le, second.2⟩
    · cases h

namespace Regex

variable {r : Regex}

/-- What is left of a program after a lead has no open groups either. -/
theorem sealed_lead {shape : Shape} {lead : Lead} (h : Lead.ofShape? shape = some lead) :
    Sealed lead.program.steps := by
  unfold Lead.ofShape? at h
  split at h
  · cases h
  · dsimp only at h
    split at h
    · cases h
    · split at h
      · cases h
        exact Expr.sealed_build _ 0 _ (List.drop_suffix _ _)
      · cases h

/-- What a pattern finds by its lead lies in the text. -/
theorem lead_fits {lead : Lead} (shut : Sealed lead.program.steps) {text : Bytes}
    {f : Program.Found} (found : lead.find? text = some f) : f.Fits text.length := by
  unfold Lead.find? at found
  split at found
  · rename_i begins
    dsimp only at found
    split at found
    · rename_i t met ran
      cases found
      obtain ⟨thread, mem, n, m, path, marks⟩ := Program.endOf_run (congrArg Prod.fst ran)
      cases List.mem_singleton.1 mem
      rw [List.append_nil] at marks
      obtain ⟨taken, split, eq⟩ := Cursor.mem_onward.1 path.mem_onward
      have whole := congrArg (fun l => (Bytes.ofScalars l).length) split
      simp only [Bytes.ofScalars_scalars, Bytes.ofScalars_append, List.length_append,
        List.length_drop] at whole
      have le := (List.isPrefixOf_iff_prefix.1 begins).length_le
      refine (marks ▸ path).fits shut (Nat.zero_le _) ?_
      have := congrArg Cursor.offset eq
      simp only [Cursor.offset_advance] at this
      simp only [Program.Found.finish]
      omega
    · cases found
  · cases found

/-- What the program of a pattern finds lies in the text. -/
theorem matchAt_fits {e : Expr} {text : Bytes} {c : Cursor} {f : Program.Found}
    (place : c ∈ (Cursor.start text).onward) (found : (Program.ofExpr e).MatchAt c f) :
    f.Fits text.length := by
  obtain ⟨start, n, path⟩ := found
  have inside := Cursor.offset_add_length (Cursor.onward_trans place path.mem_onward)
  exact path.fits (Builder.sealed_of e.sealed_build) (Nat.le_of_eq start)
    (by simp only [Program.Found.finish]; omega)

/-- A compiled pattern: the program of an expression, and perhaps a lead. -/
theorem of_ofPattern {source : Bytes} (h : ofPattern source = .ok r) :
    ∃ piece, Piece.parse source = .ok piece ∧ r.names = piece.expr.names ∧
      r.program = .ofExpr piece.expr ∧ r.lead = Lead.ofShape? piece.shape ∧
      repeated? [] piece.expr.names = none := by
  unfold ofPattern at h
  split at h
  · cases h
  · rename_i e shape parsed
    split at h
    · cases h
    · cases h
      exact ⟨_, parsed, rfl, rfl, rfl, ‹_›⟩

/-- The match that a compiled pattern finds lies in the text, and its groups lie in it. -/
theorem find?_fits {source : Bytes} (h : ofPattern source = .ok r) {text : Bytes}
    {f : Program.Found} (found : r.find? text = some f) : f.Fits text.length := by
  obtain ⟨piece, -, -, program, lead, -⟩ := of_ofPattern h
  unfold find? at found
  split at found
  · rename_i lead' isLead
    exact lead_fits (sealed_lead (lead ▸ isLead)) found
  · rw [program] at found
    obtain ⟨d, place, matched⟩ := Program.matchAt_of_find? found
    exact matchAt_fits place matched

/-- All matches that a compiled pattern finds lie in the text, and their groups lie in them. -/
theorem findAll_fits {source : Bytes} (h : ofPattern source = .ok r) {text : Bytes}
    {f : Program.Found} (found : f ∈ r.findAll text) : f.Fits text.length := by
  obtain ⟨piece, -, -, program, lead, -⟩ := of_ofPattern h
  unfold findAll at found
  split at found
  · rename_i lead' isLead
    exact lead_fits (sealed_lead (lead ▸ isLead)) (Option.mem_toList.1 found)
  · rw [program] at found
    obtain ⟨d, place, matched⟩ := (Program.lists_findAll _ none (.start text)).matchAt found
    exact matchAt_fits place matched

/-- The matches that a compiled pattern finds are in order. -/
theorem findAll_inOrder (r : Regex) (text : Bytes) : Program.InOrder (r.findAll text) := by
  unfold findAll
  split
  · rename_i lead isLead
    cases lead.find? text with
    | none => trivial
    | some f => exact ⟨by simp, trivial⟩
  · exact ((Program.lists_findAll _ none (.start text)).inOrder (by simp)).1

end Regex

end Pattern

end Rulebook

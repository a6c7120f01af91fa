import Rulebook.Proofs.Pattern.Leads
import Rulebook.Proofs.Pattern.Memory

/-!
# The order of preference

`Expr.ends` lists the places to which an expression leads from a place, the preferred first. A run
tries them in this order: the steps of an expression with others after them come to the first of the
places from which the others come to something (`Expr.fans_build`). So a search finds, at the leftmost
place from which the expression leads anywhere, the first of them (`Program.find?_eq_ends`).

This asks for loops whose rounds take a character each (`Expr.isSteady`). Where a round may be empty,
the memory of the choices that have been met has its say.
-/

namespace Rulebook

namespace Pattern

/-! ### Places in an order -/

/-- The places to try from a place, the preferred first. -/
abbrev Fan := Cursor → List Cursor

namespace Fan

/-- Only the place itself. -/
def stay : Fan := fun c => [c]

/-- One after the other. -/
def andThen (a b : Fan) : Fan := fun c => (a c).flatMap b

/-- One before the other if greedy, else after it. -/
def prefer (greedy : Bool) (more less : Fan) : Fan := fun c =>
  if greedy then more c ++ less c else less c ++ more c

/-- A number of times. -/
def power (a : Fan) : Nat → Fan
  | 0 => stay
  | n + 1 => a.andThen (a.power n)

/-- At most a number of times. -/
def upTo (greedy : Bool) (a : Fan) : Nat → Fan
  | 0 => stay
  | n + 1 => prefer greedy (a.andThen (upTo greedy a n)) stay

/-- Any number of times. There are no more rounds than characters if each round takes one. -/
def star (greedy : Bool) (a : Fan) : Fan := fun c => upTo greedy a c.rest.length c

/-- At least `min` and at most `max` times. -/
def times (greedy : Bool) (a : Fan) (min : Nat) : Option Nat → Fan
  | none =>
      match min with
      | 0 => star greedy a
      | n + 1 => (a.power n).andThen (a.andThen (star greedy a))
  | some max => (a.power min).andThen (upTo greedy a (max - min))

theorem mem_andThen {a b : Fan} {c e : Cursor} : e ∈ a.andThen b c ↔ ∃ d ∈ a c, e ∈ b d :=
  List.mem_flatMap

theorem mem_prefer {greedy : Bool} {more less : Fan} {c d : Cursor} :
    d ∈ prefer greedy more less c ↔ d ∈ more c ∨ d ∈ less c := by
  cases greedy with
  | true => simp [prefer]
  | false => simp [prefer, or_comm]

theorem stay_andThen (a : Fan) : stay.andThen a = a := by
  funext c
  simp [stay, andThen]

theorem andThen_stay (a : Fan) : a.andThen stay = a := by
  funext c
  exact List.flatMap_singleton' _

theorem andThen_assoc (a b c : Fan) : (a.andThen b).andThen c = a.andThen (b.andThen c) := by
  funext d
  exact List.flatMap_assoc

/-- True of places none of which is before the place from which they are tried. -/
def Forward (a : Fan) : Prop := ∀ c, ∀ d ∈ a c, d.rest.length ≤ c.rest.length

/-- True of places all of which are after the place from which they are tried. -/
def Shrinks (a : Fan) : Prop := ∀ c, ∀ d ∈ a c, d.rest.length < c.rest.length

variable {a b : Fan}

theorem Shrinks.forward (h : a.Shrinks) : a.Forward := fun c d mem => (h c d mem).le

theorem forward_stay : stay.Forward := fun c d mem => by rw [List.mem_singleton.1 mem]

theorem Forward.andThen (ha : a.Forward) (hb : b.Forward) : (a.andThen b).Forward := by
  intro c e mem
  obtain ⟨d, first, second⟩ := mem_andThen.1 mem
  exact (hb d e second).trans (ha c d first)

theorem Forward.prefer (ha : a.Forward) (hb : b.Forward) (greedy : Bool) :
    (Fan.prefer greedy a b).Forward := fun c d mem =>
  (mem_prefer.1 mem).elim (ha c d) (hb c d)

theorem Forward.power (ha : a.Forward) (n : Nat) : (a.power n).Forward := by
  induction n with
  | zero => exact forward_stay
  | succ n ih => exact ha.andThen ih

theorem Forward.upTo (ha : a.Forward) (greedy : Bool) (n : Nat) : (Fan.upTo greedy a n).Forward := by
  induction n with
  | zero => exact forward_stay
  | succ n ih => exact (ha.andThen ih).prefer forward_stay greedy

theorem Forward.star (ha : a.Forward) (greedy : Bool) : (Fan.star greedy a).Forward := fun c =>
  ha.upTo greedy c.rest.length c

theorem Forward.times (ha : a.Forward) (greedy : Bool) (min : Nat) (max : Option Nat) :
    (Fan.times greedy a min max).Forward := by
  unfold Fan.times
  split
  · split
    · exact ha.star greedy
    · exact (ha.power _).andThen (ha.andThen (ha.star greedy))
  · exact (ha.power _).andThen (ha.upTo greedy _)

theorem Shrinks.andThen (ha : a.Shrinks) (hb : b.Forward) : (a.andThen b).Shrinks := by
  intro c e mem
  obtain ⟨d, first, second⟩ := mem_andThen.1 mem
  exact (hb d e second).trans_lt (ha c d first)

theorem Forward.andThen_shrinks (ha : a.Forward) (hb : b.Shrinks) : (a.andThen b).Shrinks := by
  intro c e mem
  obtain ⟨d, first, second⟩ := mem_andThen.1 mem
  exact (hb d e second).trans_le (ha c d first)

/-- More rounds than there are characters change nothing. -/
theorem Shrinks.upTo_eq (ha : a.Shrinks) (greedy : Bool) {n n' : Nat} {c : Cursor}
    (enough : c.rest.length ≤ n) (enough' : c.rest.length ≤ n') :
    Fan.upTo greedy a n c = Fan.upTo greedy a n' c := by
  have stuck (c : Cursor) (ended : c.rest.length = 0) (n : Nat) : Fan.upTo greedy a n c = [c] := by
    have none : a c = [] := List.eq_nil_iff_forall_not_mem.2 fun d mem => by
      have := ha c d mem
      omega
    cases n with
    | zero => rfl
    | succ n => cases greedy <;> simp [Fan.upTo, Fan.prefer, Fan.andThen, none, stay]
  induction n generalizing n' c with
  | zero => rw [stuck c (by omega), stuck c (by omega)]
  | succ n ih =>
    cases n' with
    | zero => rw [stuck c (by omega), stuck c (by omega)]
    | succ n' =>
      have same : a.andThen (Fan.upTo greedy a n) c = a.andThen (Fan.upTo greedy a n') c := by
        refine List.flatMap_congr fun d mem => ih ?_ ?_
        · have := ha c d mem
          omega
        · have := ha c d mem
          omega
      simp only [Fan.upTo, Fan.prefer, same]

/-- Any number of times is once more, or not at all. -/
theorem Shrinks.star_eq (ha : a.Shrinks) (greedy : Bool) :
    Fan.star greedy a = Fan.prefer greedy (a.andThen (Fan.star greedy a)) stay := by
  funext c
  have same : a.andThen (Fan.star greedy a) c = a.andThen (Fan.upTo greedy a c.rest.length) c :=
    List.flatMap_congr fun d mem => ha.upTo_eq greedy (Nat.le_refl _) (ha.forward c d mem)
  rw [Fan.prefer, same]
  exact ha.upTo_eq greedy (Nat.le_refl _) (Nat.le_succ _)

end Fan

/-! ### Running -/

/-- True of steps that come to some place from a place, or to nothing, whatever has been noted. -/
def Comes (k : List Step) (c : Cursor) (r : Option Cursor) : Prop :=
  ∀ m, ∃ n found, Yields n k c m found ∧ found.map Prod.fst = r

theorem comes_nil (c : Cursor) : Comes [] c (some c) := fun _ => ⟨0, _, .done, rfl⟩

theorem Comes.move {step : Step} (plain : step.isChoice = false) {k : List Step} {c : Cursor}
    {f : Cursor → Option Cursor} (h : ∀ d ∈ step.onto c, Comes k d (f d)) :
    Comes (step :: k) c ((step.onto c).findSome? f) := by
  intro m
  cases step with
  | one set =>
    cases rest : c.rest with
    | nil => exact ⟨0, none, .ended rest, by simp [Step.onto, rest]⟩
    | cons s others =>
      cases on : set.contains s.code with
      | false => exact ⟨0, none, .other rest on, by simp [Step.onto, rest, on]⟩
      | true =>
        have onto : (Step.one set).onto c = [c.past s others] := by simp [Step.onto, rest, on]
        obtain ⟨n, found, yields, same⟩ := h _ (onto ▸ List.mem_singleton_self _) m
        exact ⟨n + 1, found, .one rest on yields, by simp [onto, same]⟩
  | test condition =>
    cases on : c.holds condition with
    | false => exact ⟨0, none, .missed on, by simp [Step.onto, on]⟩
    | true =>
      have onto : (Step.test condition).onto c = [c] := by simp [Step.onto, on]
      obtain ⟨n, found, yields, same⟩ := h _ (onto ▸ List.mem_singleton_self _) m
      exact ⟨n + 1, found, .test on yields, by simp [onto, same]⟩
  | mark slot =>
    obtain ⟨n, found, yields, same⟩ := h c (List.mem_singleton_self _) ((slot, c.offset) :: m)
    exact ⟨n + 1, found, .mark yields, by simp [Step.onto, same]⟩
  | fork | loop => cases plain

theorem Comes.choice {k first second : List Step} {label : Nat} {c : Cursor} {r r' : Option Cursor}
    (choice : Step.choice? k = some (label, first, second)) (h : Comes first c r)
    (h' : Comes second c r') : Comes k c (r.or r') := by
  intro m
  obtain ⟨n, found, yields, rfl⟩ := h m
  cases found with
  | some found => exact ⟨n + 1, some found, .first choice yields, rfl⟩
  | none =>
    obtain ⟨n', found', yields', rfl⟩ := h' m
    exact ⟨n + n' + 1, found', .second choice yields yields', rfl⟩

/-- True of a builder whose steps try some places in their order, whatever follows them. -/
def Builder.Fans (b : Builder) (a : Fan) : Prop :=
  ∀ label k f c, (∀ d ∈ a c, Comes k d (f d)) → Comes ((b label).1 ++ k) c ((a c).findSome? f)

namespace Builder

variable {a b : Builder} {p q : Fan}

theorem fans_nil : nil.Fans .stay := by
  intro label k f c h
  rw [Fan.stay, List.findSome?_singleton]
  exact h c (List.mem_singleton_self c)

theorem fans_step {step : Step} (plain : step.isChoice = false) :
    (Builder.step step).Fans step.onto := fun _ _ _ _ h => Comes.move plain h

theorem findSome?_flatMap (f : Cursor → Option Cursor) (g : Cursor → List Cursor) (xs : List Cursor) :
    (xs.flatMap g).findSome? f = xs.findSome? (fun d => (g d).findSome? f) := by
  induction xs with
  | nil => rfl
  | cons x xs ih => 
    rw [List.flatMap_cons, List.findSome?_append, ih, List.findSome?_cons]
    cases (g x).findSome? f <;> rfl

theorem Fans.append (ha : a.Fans p) (hb : b.Fans q) : (append a b).Fans (p.andThen q) := by
  intro label k f c h
  simp only [Builder.append, List.append_assoc]
  rw [Fan.andThen, findSome?_flatMap]
  refine ha _ _ _ _ fun d mem => hb _ _ _ _ fun e mem' => h e ?_
  exact Fan.mem_andThen.2 ⟨d, mem, mem'⟩

theorem Fans.choice (ha : a.Fans p) (hb : b.Fans q) : (choice a b).Fans (.prefer true p q) := by
  intro label k f c h
  have first := ha label k f c fun d mem => h d (Fan.mem_prefer.2 (.inl mem))
  have second := hb (a label).2 k f c fun d mem => h d (Fan.mem_prefer.2 (.inr mem))
  rw [Fan.prefer, if_pos rfl, List.findSome?_append]
  exact Comes.choice rfl first second

/-- A step that prefers one way to another, in either order. -/
theorem comes_prefer {greedy : Bool} (label : Nat) {k first second : List Step} {c : Cursor}
    {f : Cursor → Option Cursor} {more less : Fan}
    (choice : Step.choice? k = some (label, if greedy then (first, second) else (second, first)))
    (h : Comes first c ((more c).findSome? f)) (h' : Comes second c ((less c).findSome? f)) :
    Comes k c ((Fan.prefer greedy more less c).findSome? f) := by
  cases greedy with
  | true =>
    rw [Fan.prefer, if_pos rfl, List.findSome?_append]
    exact Comes.choice choice h h'
  | false =>
    rw [Fan.prefer, if_neg (by simp), List.findSome?_append]
    exact Comes.choice choice h' h

theorem Fans.opt (ha : a.Fans p) (greedy : Bool) : (opt greedy a).Fans (.prefer greedy p .stay) := by
  intro label k f c h
  have once := ha label k f c fun d mem => h d (Fan.mem_prefer.2 (.inl mem))
  have never := fans_nil label k f c fun d mem => h d (Fan.mem_prefer.2 (.inr mem))
  refine comes_prefer (a label).2 ?_ once never
  cases greedy <;> rfl

/-- A loop tries as many rounds as there can be. By induction on the characters that are left. -/
theorem fans_loop (ha : a.Fans p) (shrinks : p.Shrinks) (greedy : Bool) (label label' : Nat)
    {k : List Step} {f : Cursor → Option Cursor} {c : Cursor}
    (h : ∀ d ∈ Fan.star greedy p c, Comes k d (f d)) :
    Comes (.loop label' greedy (a label).1 :: k) c ((Fan.star greedy p c).findSome? f) := by
  induction size : c.rest.length using Nat.strongRecOn generalizing c with
  | ind size ih =>
    rw [shrinks.star_eq] at h ⊢
    have again : Comes ((a label).1 ++ Step.loop label' greedy (a label).1 :: k) c
        ((p.andThen (Fan.star greedy p) c).findSome? f) := by
      rw [Fan.andThen, findSome?_flatMap]
      refine ha _ _ _ _ fun d mem => ?_
      refine ih _ (size ▸ shrinks c d mem) (fun e mem' => h e ?_) rfl
      exact Fan.mem_prefer.2 (.inl (Fan.mem_andThen.2 ⟨d, mem, mem'⟩))
    have leave := fans_nil label k f c fun d mem => h d (Fan.mem_prefer.2 (.inr mem))
    refine comes_prefer label' ?_ again leave
    cases greedy <;> rfl

theorem Fans.star (ha : a.Fans p) (shrinks : p.Shrinks) (greedy : Bool) :
    (star greedy false a).Fans (.star greedy p) := fun _ _ _ _ h => fans_loop ha shrinks _ _ _ h

theorem Fans.plus (ha : a.Fans p) (shrinks : p.Shrinks) (greedy : Bool) :
    (plus greedy a).Fans (p.andThen (.star greedy p)) := by
  intro label k f c h
  simp only [Builder.plus, List.append_assoc]
  rw [Fan.andThen, findSome?_flatMap]
  refine ha _ _ _ _ fun d mem => fans_loop ha shrinks _ _ _ fun e mem' => h e ?_
  exact Fan.mem_andThen.2 ⟨d, mem, mem'⟩

theorem Fans.copies (ha : a.Fans p) (n : Nat) : (copies n a).Fans (p.power n) := by
  induction n with
  | zero => exact fans_nil
  | succ n ih => exact ha.append ih

theorem Fans.upTo (ha : a.Fans p) (greedy : Bool) (n : Nat) :
    (upTo greedy a n).Fans (.upTo greedy p n) := by
  induction n with
  | zero => exact fans_nil
  | succ n ih => exact (ha.append ih).opt greedy

theorem Fans.times (ha : a.Fans p) (greedy : Bool) (min : Nat) {max : Option Nat}
    {nullable : Bool} (shrinks : max = none → nullable = false ∧ p.Shrinks) :
    (times greedy nullable a min max).Fans (.times greedy p min max) := by
  cases max with
  | none =>
    cases min with
    | zero =>
      obtain ⟨rfl, takes⟩ := shrinks rfl
      exact ha.star takes greedy
    | succ n => exact (ha.copies n).append (ha.plus (shrinks rfl).2 greedy)
  | some max => exact (ha.copies min).append (ha.upTo greedy _)

end Builder

namespace Expr

/-- The places to which an expression leads from a place, the preferred first. -/
def ends : Expr → Fan
  | empty => .stay
  | one set => (Step.one set).onto
  | test condition => (Step.test condition).onto
  | group _ _ e => e.ends
  | cat a b => a.ends.andThen b.ends
  | alt a b => .prefer true a.ends b.ends
  | star greedy e => .star greedy e.ends
  | plus greedy e => e.ends.andThen (.star greedy e.ends)
  | opt greedy e => .prefer greedy e.ends .stay
  | times min max greedy e => .times greedy e.ends min max

/-- True of an expression in which no round of a loop can be empty. -/
@[simp] def isSteady : Expr → Bool
  | empty => true
  | one _ => true
  | test _ => true
  | group _ _ e => e.isSteady
  | cat a b => a.isSteady && b.isSteady
  | alt a b => a.isSteady && b.isSteady
  | star _ e => !e.nullable && e.isSteady
  | plus _ e => !e.nullable && e.isSteady
  | opt _ e => e.isSteady
  | times _ max _ e => (max.isSome || !e.nullable) && e.isSteady

theorem forward_onto (step : Step) : Fan.Forward step.onto := by
  intro c d mem
  cases step with
  | one set =>
    rw [Step.onto] at mem
    split at mem
    · cases mem
    · rename_i rest
      split at mem
      · cases List.mem_singleton.1 mem
        simp [rest, Cursor.past]
      · cases mem
  | test condition =>
    rw [Step.onto] at mem
    split at mem
    · cases List.mem_singleton.1 mem
      exact Nat.le_refl _
    · cases mem
  | mark => cases List.mem_singleton.1 mem; exact Nat.le_refl _
  | fork | loop => cases mem

theorem shrinks_one (set : CharSet) : Fan.Shrinks (one set).ends := by
  intro c d mem
  rw [ends, Step.onto] at mem
  split at mem
  · cases mem
  · rename_i rest
    split at mem
    · cases List.mem_singleton.1 mem
      simp [rest, Cursor.past]
    · cases mem

theorem forward_ends (e : Expr) : e.ends.Forward := by
  induction e with
  | empty => exact Fan.forward_stay
  | one set => exact forward_onto _
  | test condition => exact forward_onto _
  | group _ _ _ ih => exact ih
  | cat _ _ ih ih' => exact ih.andThen ih'
  | alt _ _ ih ih' => exact ih.prefer ih' true
  | star greedy _ ih => exact ih.star greedy
  | plus greedy _ ih => exact ih.andThen (ih.star greedy)
  | opt greedy _ ih => exact ih.prefer Fan.forward_stay greedy
  | times min max greedy _ ih => exact ih.times greedy min max

/-- An expression that does not take the empty text takes a character at least. -/
theorem shrinks_ends {e : Expr} (full : e.nullable = false) : e.ends.Shrinks := by
  induction e with
  | empty | test | star | opt => cases full
  | one set => exact shrinks_one set
  | group _ _ _ ih => exact ih full
  | cat a b ih ih' =>
    rw [nullable, Bool.and_eq_false_iff] at full
    obtain full | full := full
    · exact (ih full).andThen b.forward_ends
    · exact a.forward_ends.andThen_shrinks (ih' full)
  | alt a b ih ih' =>
    rw [nullable, Bool.or_eq_false_iff] at full
    intro c d mem
    exact (Fan.mem_prefer.1 mem).elim (ih full.1 c d) (ih' full.2 c d)
  | plus greedy e ih => exact (ih full).andThen (e.forward_ends.star greedy)
  | times min max greedy e ih =>
    rw [nullable, Bool.or_eq_false_iff, beq_eq_false_iff_ne] at full
    obtain ⟨n, rfl⟩ := Nat.exists_eq_succ_of_ne_zero full.1
    have takes := ih full.2
    cases max with
    | none =>
      exact (e.forward_ends.power n).andThen_shrinks (takes.andThen (e.forward_ends.star greedy))
    | some max =>
      exact (takes.andThen (e.forward_ends.power n)).andThen (e.forward_ends.upTo greedy _)

/-- The steps of an expression try the places to which it leads in the order of preference. -/
theorem fans_build {e : Expr} (steady : e.isSteady = true) : e.build.Fans e.ends := by
  induction e with
  | empty => exact Builder.fans_nil
  | one set => exact Builder.fans_step rfl
  | test condition => exact Builder.fans_step rfl
  | group index name e ih =>
    have mark (slot : Nat) : (Builder.step (.mark slot)).Fans .stay := Builder.fans_step rfl
    have whole := (mark (slot index)).append ((ih steady).append (mark (slot index + 1)))
    rwa [Fan.stay_andThen, Fan.andThen_stay] at whole
  | cat a b ih ih' =>
    rw [isSteady, Bool.and_eq_true] at steady
    exact (ih steady.1).append (ih' steady.2)
  | alt a b ih ih' =>
    rw [isSteady, Bool.and_eq_true] at steady
    exact (ih steady.1).choice (ih' steady.2)
  | star greedy e ih =>
    rw [isSteady, Bool.and_eq_true, Bool.not_eq_true'] at steady
    rw [build, steady.1]
    exact (ih steady.2).star (shrinks_ends steady.1) greedy
  | plus greedy e ih =>
    rw [isSteady, Bool.and_eq_true, Bool.not_eq_true'] at steady
    exact (ih steady.2).plus (shrinks_ends steady.1) greedy
  | opt greedy e ih => exact (ih steady).opt greedy
  | times min max greedy e ih =>
    rw [isSteady, Bool.and_eq_true, Bool.or_eq_true, Bool.not_eq_true'] at steady
    refine (ih steady.2).times greedy min fun none => ?_
    subst none
    have full := steady.1.resolve_left (by simp)
    exact ⟨full, shrinks_ends full⟩

/-- By itself an expression comes to the place that it prefers. -/
theorem comes_build {e : Expr} (steady : e.isSteady = true) (label : Nat) (c : Cursor) :
    Comes (e.build label).1 c (e.ends c).head? := by
  have whole := fans_build steady label [] some c fun d _ => comes_nil d
  rw [List.append_nil] at whole
  cases none : e.ends c with
  | nil => rwa [none] at whole
  | cons d others => rwa [none] at whole

section

variable {p : Passage} {a : Fan} {c d : Cursor}

theorem power_of_mem (h : ∀ c, ∀ d ∈ a c, ∃ m, p c d m) {n : Nat} (mem : d ∈ a.power n c) :
    ∃ m, p.power n c d m := by
  induction n generalizing c with
  | zero => exact ⟨[], List.mem_singleton.1 mem, rfl⟩
  | succ n ih =>
    obtain ⟨x, first, others⟩ := Fan.mem_andThen.1 mem
    obtain ⟨m, here⟩ := h c x first
    obtain ⟨m', there⟩ := ih others
    exact ⟨m' ++ m, x, m, m', here, there, rfl⟩

theorem power_of_mem_upTo (h : ∀ c, ∀ d ∈ a c, ∃ m, p c d m) {greedy : Bool} {n : Nat}
    (mem : d ∈ Fan.upTo greedy a n c) : ∃ k ≤ n, ∃ m, p.power k c d m := by
  induction n generalizing c with
  | zero => exact ⟨0, Nat.le_refl _, [], List.mem_singleton.1 mem, rfl⟩
  | succ n ih =>
    obtain mem | mem := Fan.mem_prefer.1 mem
    · obtain ⟨x, first, others⟩ := Fan.mem_andThen.1 mem
      obtain ⟨m, here⟩ := h c x first
      obtain ⟨k, le, m', there⟩ := ih others
      exact ⟨k + 1, Nat.succ_le_succ le, m' ++ m, x, m, m', here, there, rfl⟩
    · exact ⟨0, Nat.zero_le _, [], List.mem_singleton.1 mem, rfl⟩

theorem power_of_mem_once (h : ∀ c, ∀ d ∈ a c, ∃ m, p c d m) {greedy : Bool}
    (mem : d ∈ a.andThen (Fan.star greedy a) c) : ∃ k, 1 ≤ k ∧ ∃ m, p.power k c d m := by
  obtain ⟨x, first, others⟩ := Fan.mem_andThen.1 mem
  obtain ⟨m, here⟩ := h c x first
  obtain ⟨k, -, m', there⟩ := power_of_mem_upTo h others
  exact ⟨k + 1, Nat.le_add_left .., m' ++ m, x, m, m', here, there, rfl⟩

/-- Rounds after others. -/
theorem power_append {n k : Nat} {x : Cursor} (first : ∃ m, p.power n c x m)
    (second : ∃ m, p.power k x d m) : ∃ m, p.power (n + k) c d m := by
  obtain ⟨m, first⟩ := first
  obtain ⟨m', second⟩ := second
  rw [Passage.power_add]
  exact ⟨m' ++ m, x, m, m', first, second, rfl⟩

theorem often_of_mem_times (h : ∀ c, ∀ d ∈ a c, ∃ m, p c d m) {greedy : Bool} {min : Nat}
    {max : Option Nat} (mem : d ∈ Fan.times greedy a min max c) :
    ∃ m, p.often (Builder.Allowed min max) c d m := by
  have some_rounds {k : Nat} (allowed : Builder.Allowed min max k) (rounds : ∃ m, p.power k c d m) :
      ∃ m, p.often (Builder.Allowed min max) c d m := rounds.imp fun m here => ⟨k, allowed, here⟩
  cases max with
  | none =>
    cases min with
    | zero =>
      obtain ⟨k, -, rounds⟩ := power_of_mem_upTo h mem
      exact some_rounds ⟨Nat.zero_le _, nofun⟩ rounds
    | succ n =>
      obtain ⟨x, first, others⟩ := Fan.mem_andThen.1 mem
      obtain ⟨k, one, rounds⟩ := power_of_mem_once h others
      exact some_rounds ⟨by omega, nofun⟩ (power_append (power_of_mem h first) rounds)
  | some max =>
    obtain ⟨x, first, others⟩ := Fan.mem_andThen.1 mem
    obtain ⟨k, le, rounds⟩ := power_of_mem_upTo h others
    refine some_rounds ⟨Nat.le_add_right .., fun limit same => ?_⟩
      (power_append (power_of_mem h first) rounds)
    cases same
    omega

end

/-- An expression leads to the places that it prefers. -/
theorem leads_of_mem_ends {e : Expr} {c d : Cursor} (mem : d ∈ e.ends c) : e.Leads c d := by
  induction e generalizing c d with
  | empty => exact ⟨[], List.mem_singleton.1 mem, rfl⟩
  | one set =>
    rw [ends, Step.onto] at mem
    split at mem
    · cases mem
    · split at mem
      · exact leads_one.2 ⟨_, _, ‹_›, ‹_›, List.mem_singleton.1 mem⟩
      · cases mem
  | test condition =>
    rw [ends, Step.onto] at mem
    split at mem
    · exact leads_test.2 ⟨‹_›, List.mem_singleton.1 mem⟩
    · cases mem
  | group index name e ih => exact (leads_group ..).2 (ih mem)
  | cat a b ih ih' =>
    obtain ⟨x, first, second⟩ := Fan.mem_andThen.1 mem
    exact leads_cat.2 ⟨x, ih first, ih' second⟩
  | alt a b ih ih' => exact leads_alt.2 ((Fan.mem_prefer.1 mem).imp ih ih')
  | star greedy e ih =>
    obtain ⟨k, -, m, here⟩ := power_of_mem_upTo (fun _ _ => ih) mem
    exact ⟨m, k, trivial, here⟩
  | plus greedy e ih =>
    obtain ⟨k, one, m, here⟩ := power_of_mem_once (fun _ _ => ih) mem
    exact ⟨m, k, one, here⟩
  | opt greedy e ih =>
    exact leads_opt.2 ((Fan.mem_prefer.1 mem).imp ih List.mem_singleton.1)
  | times min max greedy e ih => exact often_of_mem_times (fun _ _ => ih) mem

theorem Regroups.isSteady_eq {a b : Expr} (h : Regroups a b) : a.isSteady = b.isSteady := by
  induction h with
  | refl => rfl
  | symm _ ih => exact ih.symm
  | trans _ _ ih ih' => exact ih.trans ih'
  | assoc => simp [Bool.and_assoc]
  | star same ih => simp [ih, same.nullable_eq]
  | plus same ih => simp [ih, same.nullable_eq]
  | times same ih => simp [ih, same.nullable_eq]
  | _ => simp_all

theorem isSteady_concat (es : List Expr) (steady : ∀ e ∈ es, e.isSteady = true) :
    (concat es).isSteady = true := by
  induction es with
  | nil => rfl
  | cons e es ih =>
    obtain ⟨here, others⟩ := List.forall_mem_cons.1 steady
    rw [(regroups_concat_cons e es).isSteady_eq]
    simp [here, ih others]

theorem isSteady_choice {es : List Expr} (steady : ∀ e ∈ es, e.isSteady = true) :
    (choice es).isSteady = true := by
  fun_induction choice es with
  | case1 => rfl
  | case2 e => exact steady e (List.mem_cons_self ..)
  | case3 e es several ih =>
    obtain ⟨here, others⟩ := List.forall_mem_cons.1 steady
    simp [here, ih others]

theorem Regroups.ends_eq {a b : Expr} (h : Regroups a b) : a.ends = b.ends := by
  induction h with
  | refl => rfl
  | symm _ ih => exact ih.symm
  | trans _ _ ih ih' => exact ih.trans ih'
  | assoc => exact Fan.andThen_assoc ..
  | empty_cat => exact Fan.stay_andThen _
  | cat_empty => exact Fan.andThen_stay _
  | group _ ih => exact ih
  | cat _ _ ih ih' => simp only [ends, ih, ih']
  | alt _ _ ih ih' => simp only [ends, ih, ih']
  | star _ ih => simp only [ends, ih]
  | plus _ ih => simp only [ends, ih]
  | opt _ ih => simp only [ends, ih]
  | times _ ih => simp only [ends, ih]

@[simp] theorem ends_nameless (e : Expr) : e.nameless.ends = e.ends := by
  induction e with
  | empty | one | test => rfl
  | group _ _ _ ih => exact ih
  | _ => simp_all [nameless, ends]

@[simp] theorem isSteady_nameless (e : Expr) : e.nameless.isSteady = e.isSteady := by
  induction e with
  | empty | one | test => rfl
  | _ => simp_all [nameless]

theorem ends_numberFrom (e : Expr) (next : Nat) : (e.numberFrom next).1.ends = e.ends := by
  induction e generalizing next with
  | empty | one | test => rfl
  | group _ _ _ ih => exact ih _
  | _ => simp_all [numberFrom, ends]

theorem nullable_numberFrom (e : Expr) (next : Nat) :
    (e.numberFrom next).1.nullable = e.nullable := by
  induction e generalizing next with
  | empty | one | test => rfl
  | _ => simp_all [numberFrom, nullable]

theorem isSteady_numberFrom (e : Expr) (next : Nat) :
    (e.numberFrom next).1.isSteady = e.isSteady := by
  induction e generalizing next with
  | empty | one | test => rfl
  | _ => simp_all [numberFrom, nullable_numberFrom]

end Expr

/-! ### Searching -/

namespace Program

variable {points : List (Nat × List Step)} {labels : Nat} {start : Cursor}

/-- A run finds what the steps come to, and meets nothing but choices that fail if that is nothing. -/
theorem run_of_comes (searchable : Searchable points labels start) {k : List Step} {c : Cursor}
    {r : Option Cursor} (comes : Comes k c r) (inside : Inside points k) (mem : c ∈ start.onward)
    {met : Met} (tried : Tried points labels start ∅ met) :
    ∃ result met', run (limit labels start) met [⟨k, c, []⟩] = (result, met') ∧
      result.map Thread.place = r ∧ (r = none → Tried points labels start ∅ met') := by
  obtain ⟨n, found, yields, rfl⟩ := comes []
  cases found with
  | some found =>
    have known : Known points labels start n met := tried.known ⟨by simp, by simp⟩
    have result := run_of_yields_some searchable yields rfl inside mem known []
    exact ⟨_, _, Prod.ext result rfl, rfl, nofun⟩
  | none =>
    obtain ⟨met', passed, more⟩ := run_of_yields_none searchable yields rfl inside mem met []
    refine ⟨none, met', ?_, rfl, fun _ => tried.trans more⟩
    rw [passed, run]

/-- Where an expression prefers to lead from a place, with the offset of the place. -/
def preferred (e : Expr) (x : Cursor) : Option (Nat × Cursor) :=
  (e.ends x).head?.map fun d => (x.offset, d)

/-- A search finds the first place to which an expression leads from the leftmost place from which it
    leads anywhere. By induction on the characters that are left: up to that place only choices have
    been met that fail. -/
theorem findFrom_eq_ends {e : Expr} (steady : e.isSteady = true)
    (wide : ∀ s ∈ start.rest, 0 < s.width) {before : Option Char} {offset : Nat}
    {rest : List Scalar} (mem : (⟨before, offset, rest⟩ : Cursor) ∈ start.onward) {met : Met}
    (tried : Tried (Step.pointsOf (ofExpr e).steps []) (ofExpr e).labels start ∅ met) :
    (findFrom (ofExpr e) (limit (ofExpr e).labels start) met before offset rest).map Found.extent =
      (Cursor.along before offset rest).findSome? (preferred e) := by
  have searchable := Program.searchable e wide
  have comes (x : Cursor) : Comes (ofExpr e).steps x (e.ends x).head? := Expr.comes_build steady 0 x
  induction rest generalizing met before offset with
  | nil =>
    obtain ⟨result, met', found, same, -⟩ :=
      run_of_comes searchable (comes _) (fun _ mem => mem) mem tried
    rw [findFrom, found, Cursor.along, List.findSome?_singleton, preferred, ← same]
    cases result <;> rfl
  | cons s rest ih =>
    obtain ⟨result, met', found, same, fails⟩ :=
      run_of_comes searchable (comes _) (fun _ mem => mem) mem tried
    rw [findFrom, found, Cursor.along, List.findSome?_cons, preferred, ← same]
    cases result with
    | some thread => rfl
    | none => exact ih (Cursor.past_mem_onward mem rfl) (fails same.symm)

/-- The match that a search finds is the preferred one at the leftmost place. -/
theorem find?_eq_ends {e : Expr} (steady : e.isSteady = true) {c : Cursor}
    (wide : ∀ s ∈ c.rest, 0 < s.width) :
    ((ofExpr e).find? c).map Found.extent = c.onward.findSome? (preferred e) :=
  findFrom_eq_ends steady wide (Cursor.self_mem_onward c) (.refl ∅)

end Program

end Pattern

end Rulebook

import Rulebook.Proofs.Pattern.Sketch

/-!
# Reading a group

A group is read as a pattern of its own: what is around it stays as it is, and the group becomes one
part of it. So a pattern that is read has the names of its groups in the order of its tokens, and a
group that stands in a pattern that is read can be read by itself.
-/

namespace Rulebook

namespace Pattern

namespace Token

/-- How many groups are open after some tokens, if none is closed that is not open. -/
def levels (open_ : Nat) : List Token → Option Nat
  | [] => some open_
  | capture _ :: rest => levels (open_ + 1) rest
  | enclose _ :: rest => levels (open_ + 1) rest
  | close :: rest =>
      match open_ with
      | 0 => none
      | n + 1 => levels n rest
  | _ :: rest => levels open_ rest

theorem levels_append (n : Nat) (xs ys : List Token) :
    levels n (xs ++ ys) = (levels n xs).bind (levels · ys) := by
  fun_induction levels n xs <;> simp_all [levels]

/-- Tokens that close as many groups as they open. -/
def Balanced (xs : List Token) : Prop := ∀ n, levels n xs = some n

theorem levels_add {n m : Nat} {xs : List Token} (h : levels n xs = some m) (k : Nat) :
    levels (n + k) xs = some (m + k) := by
  fun_induction levels n xs with
  | case1 n =>
    cases h
    rfl
  | case2 n name rest ih => simpa [levels, Nat.add_right_comm] using ih h
  | case3 n changes rest ih => simpa [levels, Nat.add_right_comm] using ih h
  | case4 rest => simp at h
  | case5 rest n ih =>
    rw [Nat.succ_add]
    exact ih h
  | case6 n token rest h₁ h₂ h₃ ih => simpa [levels] using ih h

theorem balanced_of_levels {xs : List Token} (h : levels 0 xs = some 0) : Balanced xs := by
  intro n
  simpa using levels_add h n

theorem Balanced.append {xs ys : List Token} (h : Balanced xs) (h' : Balanced ys) :
    Balanced (xs ++ ys) := by
  intro n
  rw [levels_append, h n]
  exact h' n

/-- The names of the groups that tokens open. -/
def names : List Token → List Bytes
  | [] => []
  | capture name :: rest => name :: names rest
  | _ :: rest => names rest

theorem names_append (xs ys : List Token) : names (xs ++ ys) = names xs ++ names ys := by
  fun_induction names xs <;> simp_all [names]

end Token

namespace Sketch

/-- Before anything is read, with some settings in force. -/
def begin (flags : Flags) : Sketch := ⟨flags, ⟨none, {}, [], [], [], []⟩, [], []⟩

/-- Reads all tokens of a pattern with some settings in force. -/
def readWith (flags : Flags) (tokens : List Token) : Option (Expr × Shape) :=
  match (begin flags).run tokens with
  | none => none
  | some s => if s.outer.isEmpty then s.finish else none

theorem read_eq (tokens : List Token) : read tokens = readWith {} tokens := rfl

theorem run_append (s : Sketch) (xs ys : List Token) :
    s.run (xs ++ ys) = (s.run xs).bind (·.run ys) := by
  induction xs generalizing s with
  | nil => rfl
  | cons x xs ih =>
    simp only [List.cons_append, run]
    cases s.step x with
    | none => rfl
    | some next => exact ih next

/-! ### What is around a group -/

/-- Layers the last of which belongs to a group. -/
def rebase (name : Option Bytes) (back : Flags) : List Layer → List Layer
  | [] => []
  | [layer] => [{ layer with name := name, flags := back }]
  | layer :: rest => layer :: rebase name back rest

/-- A sketch of a group, put into what is around the group. -/
def place (name : Option Bytes) (back : Flags) (around : List Layer) (s : Sketch) : Sketch :=
  match rebase name back (s.top :: s.outer) ++ around with
  | [] => s
  | top :: outer => { s with top := top, outer := outer }

variable {name : Option Bytes} {back : Flags} {around : List Layer}

theorem within_map {α β : Type} (f : α → β) (shape : Shape) (next : α) :
    within shape (f next) = (within shape next).map f := by
  unfold within
  split <;> rfl

theorem push_place (expr : Expr) (shape : Shape) (s : Sketch) :
    (s.place name back around).push expr shape =
      (s.push expr shape).map (place name back around) := by
  unfold push
  rw [← within_map]
  obtain ⟨flags, top, outer, last⟩ := s
  cases outer <;> rfl

theorem endAlternative_place (s : Sketch) :
    (s.place name back around).endAlternative =
      s.endAlternative.map (place name back around) := by
  unfold endAlternative
  rw [← within_map]
  obtain ⟨flags, top, outer, last⟩ := s
  cases outer <;> rfl

theorem finish_place (s : Sketch) : (s.place name back around).finish = s.finish := by
  unfold finish
  rw [endAlternative_place]
  cases s.endAlternative with
  | none => rfl
  | some next =>
    obtain ⟨flags, top, outer, last⟩ := next
    cases outer <;> rfl

theorem close_place (inner : Option Bytes) (expr : Expr) (shape : Shape) (s : Sketch) :
    close inner expr shape (s.place name back around) =
      (close inner expr shape s).map (place name back around) := by
  cases inner <;> exact push_place _ _ s

theorem leave_place {s : Sketch} (h : s.outer ≠ []) :
    (s.place name back around).leave = s.leave.map (place name back around) := by
  unfold leave
  rw [finish_place]
  cases s.finish with
  | none => rfl
  | some parts =>
    obtain ⟨flags, top, outer, last⟩ := s
    match outer, h with
    | [layer], _ => exact close_place _ _ _ ⟨top.flags, layer, [], []⟩
    | layer :: next :: outer, _ => exact close_place _ _ _ ⟨top.flags, layer, next :: outer, []⟩

theorem repeatLast_place (count : Count) (marked : Bool) (text : Bytes) (s : Sketch) :
    (s.place name back around).repeatLast count marked text =
      (s.repeatLast count marked text).map (place name back around) := by
  obtain ⟨flags, ⟨group, flags', finished, exprs, choices, parts⟩, outer, last⟩ := s
  match last, exprs, parts with
  | _ :: _, _, _ => cases outer <;> rfl
  | [], [], _ => cases outer <;> rfl
  | [], _ :: _, [] => cases outer <;> rfl
  | [], body :: before, part :: others =>
    by_cases fit : Reading.countsFit count (.repeated count (marked == flags.lazy) body)
    · cases outer <;> simp [repeatLast, place, rebase, fit, ← within_map]
    · cases outer <;> simp [repeatLast, place, rebase, fit]

theorem enter_place (inner : Option Bytes) (flags : Flags) (s : Sketch) :
    (s.place name back around).enter inner flags =
      (s.enter inner flags).place name back around := by
  obtain ⟨flags, top, outer, last⟩ := s
  cases outer <;> rfl

/-- A token is read inside a group as it is read by itself, unless it closes the group. -/
theorem step_place {s : Sketch} {token : Token} (h : token = .close → s.outer ≠ []) :
    (s.place name back around).step token = (s.step token).map (place name back around) := by
  have flags : (s.place name back around).flags = s.flags := by
    obtain ⟨flags, top, outer, last⟩ := s
    cases outer <;> rfl
  cases token with
  | close => exact leave_place (h rfl)
  | bar => exact endAlternative_place s
  | repeated count marked text => exact repeatLast_place count marked text s
  | change changes =>
    obtain ⟨flags, top, outer, last⟩ := s
    cases outer <;> rfl
  | capture inner =>
    simp only [step, flags]
    rw [enter_place]
    rfl
  | enclose changes =>
    simp only [step, flags]
    rw [enter_place]
    rfl
  | _ =>
    simp only [step, flags]
    exact push_place _ _ s

theorem eq_of_within {α : Type} {shape : Shape} {a b : α} (h : within shape a = some b) : b = a := by
  unfold within at h
  split at h
  · exact (Option.some.inj h).symm
  · cases h

/-- What a part that is added leaves as it was. -/
theorem outer_push {expr : Expr} {shape : Shape} {s s' : Sketch} (h : s.push expr shape = some s') :
    s'.outer = s.outer := by
  rw [eq_of_within h]

/-- How many groups are open is how many layers are around the innermost. -/
theorem levels_step {s s' : Sketch} {token : Token} (h : s.step token = some s') :
    Token.levels s.outer.length [token] = some s'.outer.length := by
  cases token with
  | close =>
    simp only [step, leave] at h
    split at h
    · cases h
    · split at h
      · cases h
      · rename_i layer outer around
        simp only [close] at h
        have : s'.outer = outer := by
          split at h <;> exact outer_push h
        rw [around, this]
        rfl
  | bar => rw [eq_of_within h]; rfl
  | repeated count marked text =>
    simp only [step, repeatLast] at h
    split at h
    · cases h
    · split at h
      · split at h
        · rw [eq_of_within h]
          rfl
        · cases h
      · cases h
  | change changes | capture name | enclose changes =>
    cases h
    rfl
  | _ =>
    rw [outer_push h]
    rfl

theorem levels_run {s s' : Sketch} {tokens : List Token} (h : s.run tokens = some s') :
    Token.levels s.outer.length tokens = some s'.outer.length := by
  induction tokens generalizing s with
  | nil =>
    cases h
    rfl
  | cons token rest ih =>
    simp only [run] at h
    split at h
    · cases h
    · rename_i next first
      rw [← List.singleton_append, Token.levels_append, levels_step first]
      exact ih h

/-- Tokens that close no group but those they open are read inside a group as by themselves. -/
theorem run_place {s : Sketch} {tokens : List Token} {n : Nat}
    (h : Token.levels s.outer.length tokens = some n) :
    (s.place name back around).run tokens = (s.run tokens).map (place name back around) := by
  induction tokens generalizing s with
  | nil => rfl
  | cons token rest ih =>
    have inside : token = .close → s.outer ≠ [] := by
      rintro rfl outer
      simp [outer, Token.levels] at h
    simp only [run]
    rw [step_place inside]
    cases first : s.step token with
    | none => rfl
    | some next =>
      refine ih ?_
      rw [← List.singleton_append, Token.levels_append, levels_step first] at h
      exact h

theorem balanced_of_readWith {flags : Flags} {tokens : List Token} {parts : Expr × Shape}
    (h : readWith flags tokens = some parts) : Token.Balanced tokens := by
  unfold readWith at h
  split at h
  · cases h
  · rename_i s run
    split at h
    · rename_i closed
      refine Token.balanced_of_levels ?_
      have := levels_run run
      rwa [List.isEmpty_iff.1 closed] at this
    · cases h

/-- A group is read as a pattern of its own, and becomes a part of what is around it. -/
theorem run_enter {s : Sketch} {inner : Option Bytes} {flags : Flags} {tokens : List Token}
    (balanced : Token.Balanced tokens) :
    (s.enter inner flags).run (tokens ++ [Token.close]) =
      match readWith flags tokens with
      | none => none
      | some (expr, shape) => close inner expr shape { s with last := [] } := by
  have placed : s.enter inner flags = (begin flags).place inner s.flags (s.top :: s.outer) := rfl
  rw [placed, run_append, run_place (s := begin flags) (balanced 0), readWith]
  cases run : (begin flags).run tokens with
  | none => rfl
  | some next =>
    have outer : next.outer = [] := by
      have := (levels_run run).symm.trans (balanced 0)
      simpa using this
    simp only [Option.map_some, Option.bind_some, outer, List.isEmpty_nil, if_true]
    simp only [Sketch.run, step]
    unfold leave
    rw [finish_place]
    cases next.finish with
    | none => rfl
    | some parts =>
      obtain ⟨flags', top, outer', last⟩ := next
      subst outer
      simp only [place, rebase, List.cons_append, List.nil_append]
      generalize close inner parts.1 parts.2 _ = result
      cases result <;> rfl

end Sketch

/-! ### Names -/

namespace Expr

theorem names_concat (es : List Expr) : (concat es).names = es.flatMap names := by
  fun_induction concat es with
  | case1 => rfl
  | case2 e => simp
  | case3 e rest several ih => simp [names, ih]

theorem names_choice (es : List Expr) : (choice es).names = es.flatMap names := by
  fun_induction choice es with
  | case1 => rfl
  | case2 e => simp
  | case3 e rest several ih => simp [names, ih]

theorem names_repeated (count : Count) (greedy : Bool) (e : Expr) :
    (repeated count greedy e).names = e.names := by
  cases count <;> rfl

end Expr

/-- The names of the groups in a layer, in order, without that of its own group. -/
def Layer.inner (l : Layer) : List Bytes :=
  l.finished.reverse.flatMap Expr.names ++ l.exprs.reverse.flatMap Expr.names

/-- The names of the groups in a layer, in order, with that of its own group. -/
def Layer.names (l : Layer) : List Bytes := l.name.toList ++ l.inner

namespace Sketch

/-- The names of all groups that have been opened, in order. -/
def names (s : Sketch) : List Bytes := (s.top :: s.outer).reverse.flatMap Layer.names

theorem names_eq (s : Sketch) : s.names = s.outer.reverse.flatMap Layer.names ++ s.top.names := by
  simp [names]

theorem names_push {expr : Expr} {shape : Shape} {s s' : Sketch}
    (h : s.push expr shape = some s') : s'.names = s.names ++ expr.names := by
  rw [eq_of_within h]
  simp [names_eq, Layer.names, Layer.inner]

theorem names_endAlternative {s s' : Sketch} (h : s.endAlternative = some s') :
    s'.names = s.names ∧ s'.top.inner = s.top.inner ∧ s'.top.exprs = [] := by
  rw [eq_of_within h]
  simp [names_eq, Layer.names, Layer.inner, Expr.names_concat]

theorem names_finish {s : Sketch} {expr : Expr} {shape : Shape}
    (h : s.finish = some (expr, shape)) : expr.names = s.top.inner := by
  unfold finish at h
  split at h
  · cases h
  · rename_i next ended
    have parts := eq_of_within h
    simp only [Prod.mk.injEq] at parts
    obtain ⟨-, inner, exprs⟩ := names_endAlternative ended
    rw [parts.1, Expr.names_choice, ← inner, Layer.inner, exprs]
    simp

theorem names_step {s s' : Sketch} {token : Token} (h : s.step token = some s') :
    s'.names = s.names ++ Token.names [token] := by
  cases token with
  | close =>
    simp only [step, leave] at h
    split at h
    · cases h
    · rename_i expr shape finished
      split at h
      · cases h
      · rename_i layer outer around
        have inner := names_finish finished
        simp only [close] at h
        split at h
        · rename_i anonymous
          rw [names_push h]
          simp [names_eq, Layer.names, Token.names, around, inner, anonymous]
        · rename_i name named
          rw [names_push h]
          simp [names_eq, Layer.names, Token.names, around, inner, named, Expr.names]
  | bar => simp [(names_endAlternative h).1, Token.names]
  | repeated count marked text =>
    simp only [step, repeatLast] at h
    split at h
    · cases h
    · split at h
      · rename_i exprs parts
        split at h
        · rw [eq_of_within h]
          simp [names_eq, Layer.names, Layer.inner, Token.names, Expr.names_repeated, exprs]
        · cases h
      · cases h
  | change changes =>
    cases h
    simp [names_eq, Token.names]
  | capture name =>
    cases h
    simp [names_eq, enter, Token.names, Layer.names, Layer.inner]
  | enclose changes =>
    cases h
    simp [names_eq, enter, Token.names, Layer.names, Layer.inner]
  | _ =>
    rw [names_push h]
    rfl

theorem names_run {s s' : Sketch} {tokens : List Token} (h : s.run tokens = some s') :
    s'.names = s.names ++ Token.names tokens := by
  induction tokens generalizing s with
  | nil =>
    cases h
    simp [Token.names]
  | cons token rest ih =>
    simp only [run] at h
    split at h
    · cases h
    · rename_i next first
      rw [ih h, names_step first, List.append_assoc, ← Token.names_append]
      rfl

/-- The name of the outermost group. -/
def base (s : Sketch) : Option (Option Bytes) := ((s.top :: s.outer).map Layer.name).getLast?

theorem base_push {expr : Expr} {shape : Shape} {s s' : Sketch} (h : s.push expr shape = some s') :
    s'.base = s.base := by
  rw [eq_of_within h]
  rfl

theorem base_step {s s' : Sketch} {token : Token} (h : s.step token = some s') :
    s'.base = s.base := by
  cases token with
  | close =>
    simp only [step, leave] at h
    split at h
    · cases h
    · split at h
      · cases h
      · rename_i layer outer around
        simp only [close] at h
        split at h
        · rw [base_push h]
          simp [base, around]
        · rw [base_push h]
          simp [base, around]
  | bar =>
    rw [eq_of_within h]
    rfl
  | repeated count marked text =>
    simp only [step, repeatLast] at h
    split at h
    · cases h
    · split at h
      · split at h
        · rw [eq_of_within h]
          rfl
        · cases h
      · cases h
  | change changes =>
    cases h
    rfl
  | capture name | enclose changes =>
    cases h
    simp [base, enter]
  | _ => exact base_push h

theorem base_run {s s' : Sketch} {tokens : List Token} (h : s.run tokens = some s') :
    s'.base = s.base := by
  induction tokens generalizing s with
  | nil =>
    cases h
    rfl
  | cons token rest ih =>
    simp only [run] at h
    split at h
    · cases h
    · rename_i next first
      exact (ih h).trans (base_step first)

/-- The names of the groups stand in the order of the tokens that open them. -/
theorem names_readWith {flags : Flags} {tokens : List Token} {expr : Expr} {shape : Shape}
    (h : readWith flags tokens = some (expr, shape)) : expr.names = Token.names tokens := by
  unfold readWith at h
  split at h
  · cases h
  · rename_i s run
    split at h
    · rename_i closed
      have outer := List.isEmpty_iff.1 closed
      have anonymous : s.top.name = none := by
        have := base_run run
        simpa [base, outer, begin] using this
      have names := names_run run
      simp [names_eq, outer, Layer.names, Layer.inner, begin, anonymous] at names
      rw [names_finish h, ← names]
      rfl
    · cases h

end Sketch

end Pattern

end Rulebook

import Mathlib.Data.List.Infix
import Rulebook.Pattern.Token.Scan
import Rulebook.Proofs.Text.Scalar

/-!
# Tokens before a parenthesis

Every reader of a token stops of its own accord before a closing parenthesis, and reads there what
it reads at the end of a pattern. There is one exception: a class that holds `[:` looks for `:]` in
all that follows, and if it finds it behind the parenthesis, it has a fault.
-/

namespace Rulebook

namespace Pattern

namespace Token

/-- The closing parenthesis. -/
def paren : Scalar := Scalar.ascii 41

@[simp] theorem char_paren : paren.char = ')' := rfl

/-! ### What is left -/

theorem suffix_cons_of {s t : List Scalar} (c : Scalar) (h : s <:+ t) : s <:+ c :: t :=
  h.trans (List.suffix_cons c t)

theorem suffix_of_cons {s t : List Scalar} {c : Scalar} (h : c :: s <:+ t) : s <:+ t :=
  (List.suffix_cons c s).trans h

theorem hexBraces_suffix {whole s : List Scalar} {value digits x : Nat} {rest : List Scalar}
    (h : hexBraces whole value digits s = .ok (x, rest)) : rest <:+ s := by
  fun_induction hexBraces whole value digits s <;>
    grind -linarith [refuse, refuseAll, suffix_cons_of]

theorem hexEscape_suffix {whole s : List Scalar} {x : Nat} {rest : List Scalar}
    (h : hexEscape whole s = .ok (x, rest)) : rest <:+ s := by
  revert h
  fun_cases hexEscape whole s <;>
    grind -linarith [refuse, refuseAll, suffix_cons_of, → hexBraces_suffix]

theorem octalDigits_suffix (n value : Nat) (s : List Scalar) :
    (octalDigits n value s).2 <:+ s := by
  fun_induction octalDigits n value s <;> grind -linarith [suffix_cons_of]

theorem escape_suffix {slash : Scalar} {s : List Scalar} {x : Nat} {rest : List Scalar}
    (h : escape slash s = .ok (x, rest)) : rest <:+ s := by
  revert h
  fun_cases escape slash s <;>
    grind -linarith [refuse, refuseAll, suffix_cons_of, octalDigits_suffix, → hexEscape_suffix]

theorem cutAt?_suffix {c : Char} {s front back : List Scalar}
    (h : cutAt? c s = some (front, back)) : back <:+ s := by
  fun_induction cutAt? c s generalizing front back <;> grind -linarith [suffix_cons_of]

theorem cutNamed?_suffix {s front back : List Scalar}
    (h : cutNamed? s = some (front, back)) : back <:+ s := by
  fun_induction cutNamed? s generalizing front back <;>
    grind -linarith [suffix_cons_of, List.tail_suffix]

theorem property_suffix {mark s : List Scalar} {negated : Bool} {x : SetItem} {rest : List Scalar}
    (h : property mark negated s = .ok (x, rest)) : rest <:+ s := by
  revert h
  fun_cases property mark negated s <;>
    grind -linarith [refuse, refuseAll, suffix_cons_of, → cutAt?_suffix]

theorem classChar_suffix {whole s : List Scalar} {x : Nat} {rest : List Scalar}
    (h : classChar whole s = .ok (x, rest)) : rest <:+ s := by
  revert h
  fun_cases classChar whole s <;>
    grind -linarith [refuse, refuseAll, suffix_cons_of, → escape_suffix]

theorem classRange_suffix {whole s : List Scalar} {x : SetItem} {rest : List Scalar}
    (h : classRange whole s = .ok (x, rest)) : rest <:+ s := by
  revert h
  fun_cases classRange whole s <;>
    grind -linarith [refuse, → suffix_of_cons, → classChar_suffix]

theorem classItem_suffix {whole s : List Scalar} {x : SetItem} {rest : List Scalar}
    (h : classItem whole s = .ok (x, rest)) : rest <:+ s := by
  revert h
  fun_cases classItem whole s <;>
    grind -linarith [refuse, suffix_cons_of, → classRange_suffix, → cutNamed?_suffix, → property_suffix]

theorem classItems_suffix {whole s : List Scalar} {first : Bool} {x : List SetItem}
    {rest : List Scalar} (h : classItems whole first s = .ok (x, rest)) : rest <:+ s := by
  fun_induction classItems whole first s generalizing x rest with
  | case1 first s ended =>
    cases h
    exact List.tail_suffix s
  | case2 first s going fault failed => simp at h
  | case3 first s going item back found _ fault failed ih => simp at h
  | case4 first s going item back found _ items back' others ih =>
    cases h
    exact (ih others).trans (classItem_suffix found)

theorem bracketClass_suffix {bracket : Scalar} {s : List Scalar} {x : Token} {rest : List Scalar}
    (h : bracketClass bracket s = .ok (x, rest)) : rest <:+ s := by
  revert h
  fun_cases bracketClass bracket s with
  | case1 negated fault failed => simp
  | case2 negated items back found =>
    intro h
    cases h
    refine (classItems_suffix found).trans ?_
    split
    · exact List.tail_suffix s
    · exact List.suffix_rfl

theorem namedGroup_suffix {mark s : List Scalar} {x : Token} {rest : List Scalar}
    (h : namedGroup mark s = .ok (x, rest)) : rest <:+ s := by
  revert h
  fun_cases namedGroup mark s <;> grind -linarith [refuseAll, → cutAt?_suffix]

theorem flagGroup_suffix {whole s : List Scalar} {minus seen : Bool}
    {changes : List (Flag × Bool)} {x : Token} {rest : List Scalar}
    (h : flagGroup whole minus seen changes s = .ok (x, rest)) : rest <:+ s := by
  fun_induction flagGroup whole minus seen changes s <;>
    grind -linarith [refuse, refuseAll, suffix_cons_of]

theorem group_suffix {open_ : Scalar} {s : List Scalar} {x : Token} {rest : List Scalar}
    (h : group open_ s = .ok (x, rest)) : rest <:+ s := by
  unfold group at h
  grind -linarith [suffix_cons_of, → namedGroup_suffix, → flagGroup_suffix]

theorem number?_suffix {s : List Scalar} {n : Nat} {rest : List Scalar}
    (h : number? s = some (n, rest)) : rest <:+ s := by
  have := List.dropWhile_suffix (l := s) fun d => d.char.isDigit
  revert h
  fun_cases number? s <;> grind -linarith

theorem counts?_suffix {s : List Scalar} {x : Nat × Option Nat} {rest : List Scalar}
    (h : counts? s = some (x, rest)) : rest <:+ s := by
  revert h
  fun_cases counts? s <;>
    grind -linarith [→ number?_suffix, → suffix_of_cons, suffix_cons_of]

theorem repetition_suffix (count : Count) (mark s : List Scalar) :
    (repetition count mark s).2 <:+ s := by
  fun_cases repetition count mark s <;> grind -linarith [suffix_cons_of]

theorem braces_suffix {brace : Scalar} {s : List Scalar} {x : Token} {rest : List Scalar}
    (h : braces brace s = .ok (x, rest)) : rest <:+ s := by
  revert h
  fun_cases braces brace s <;>
    grind -linarith [refuse, → counts?_suffix, repetition_suffix]

/-! ### Escapes -/

theorem hexBraces_append {whole s : List Scalar} {value digits x : Nat} {rest : List Scalar}
    (h : hexBraces whole value digits s = .ok (x, rest)) (whole' k : List Scalar) :
    hexBraces whole' value digits (s ++ k) = .ok (x, rest ++ k) := by
  fun_induction hexBraces whole value digits s <;> grind -linarith [hexBraces, refuse, refuseAll]

theorem hexEscape_brace {c : Scalar} (valid : c.isStray = false) (brace : c.char = '{')
    (whole s : List Scalar) : hexEscape whole (c :: s) = hexBraces whole 0 0 s := by
  cases s <;> simp [hexEscape, valid, brace]

theorem hexEscape_append {whole s : List Scalar} {x : Nat} {rest : List Scalar}
    (h : hexEscape whole s = .ok (x, rest)) (whole' k : List Scalar) :
    hexEscape whole' (s ++ k) = .ok (x, rest ++ k) := by
  revert h
  fun_cases hexEscape whole s with
  | case3 c s valid brace =>
    intro h
    rw [List.cons_append, hexEscape_brace (by simpa using valid) (by simpa using brace)]
    exact hexBraces_append h whole' k
  | _ => grind -linarith [hexEscape, refuse, refuseAll]

theorem octalDigits_append (n value : Nat) (s k : List Scalar) :
    octalDigits n value (s ++ paren :: k) =
      ((octalDigits n value s).1, (octalDigits n value s).2 ++ paren :: k) := by
  fun_induction octalDigits n value s with
  | case1 n value c rest octal ih => simp [octalDigits, octal, ih]
  | case2 n value c rest octal => simp [octalDigits, octal]
  | case3 n value s other =>
    match n, s with
    | 0, s => simp [octalDigits]
    | n + 1, [] => simp [octalDigits, isOctal]
    | n + 1, c :: rest => exact absurd rfl (other n c rest rfl)

theorem escape_append {slash : Scalar} {s : List Scalar} {x : Nat} {rest : List Scalar}
    (h : escape slash s = .ok (x, rest)) (k : List Scalar) :
    escape slash (s ++ paren :: k) = .ok (x, rest ++ paren :: k) := by
  have octal (n value : Nat) (t : List Scalar)
      (h : Except.ok (octalDigits n value t) = (.ok (x, rest) : Except Fault _)) :
      Except.ok (octalDigits n value (t ++ paren :: k)) =
        (.ok (x, rest ++ paren :: k) : Except Fault _) := by
    rw [octalDigits_append, Except.ok.inj h]
  have refused {fault : Fault} {goal : Prop}
      (h : Except.error fault = (.ok (x, rest) : Except Fault (Nat × List Scalar))) : goal := by
    cases h
  cases s with
  | nil => cases h
  | cons c s =>
    revert h
    rw [List.cons_append]
    simp only [escape, refuse, refuseAll]
    split
    · exact refused
    split
    case h_7 => exact fun h => hexEscape_append h _ _
    case h_8 => exact octal 2 0 s
    case h_9 =>
      split
      · cases s with
        | nil => exact refused
        | cons d s =>
          simp only [List.cons_append]
          split
          · exact octal 2 _ (d :: s)
          · exact refused
      split
      · rintro ⟨⟩
        rfl
      · exact refused
    -- the letters stand for themselves
    all_goals
      rintro ⟨⟩
      rfl

/-! ### Properties and groups -/

theorem cutAt?_append {c : Char} {s front back : List Scalar}
    (h : cutAt? c s = some (front, back)) (k : List Scalar) :
    cutAt? c (s ++ k) = some (front, back ++ k) := by
  fun_induction cutAt? c s generalizing front back <;> grind -linarith [cutAt?]

/-- No property has an empty name. -/
theorem property?_nil : property? [] = none := by
  decide +kernel

theorem property_append {mark s : List Scalar} {negated : Bool} {x : SetItem} {rest : List Scalar}
    (h : property mark negated s = .ok (x, rest)) (k : List Scalar) :
    property mark negated (s ++ k) = .ok (x, rest ++ k) := by
  cases s with
  | nil =>
    have unknown : propertyClass? negated (Bytes.ofScalars []) = none := by
      rw [Bytes.ofScalars_nil, propertyClass?.eq_def]
      exact congrArg (Option.map _) property?_nil
    unfold property at h
    simp only [unknown, refuseAll] at h
    cases h
  | cons c s =>
    revert h
    unfold property
    simp only [List.cons_append]
    split
    · simp [refuseAll]
    split
    · cases cut : cutAt? '}' s with
      | none =>
        simp only
        split <;> simp [refuseAll]
      | some parts =>
        obtain ⟨name, back⟩ := parts
        rw [cutAt?_append cut k]
        simp only
        split
        · simp
        · split <;> simp [refuseAll]
    · split <;> simp [refuseAll]

theorem namedGroup_append {mark s : List Scalar} {x : Token} {rest : List Scalar}
    (h : namedGroup mark s = .ok (x, rest)) (k : List Scalar) :
    namedGroup mark (s ++ k) = .ok (x, rest ++ k) := by
  revert h
  simp only [namedGroup]
  cases cut : cutAt? '>' s with
  | none =>
    simp only
    split <;> simp [refuseAll]
  | some parts =>
    obtain ⟨name, back⟩ := parts
    rw [cutAt?_append cut k]
    simp only
    split
    · simp
    · split <;> simp [refuseAll]

theorem flagGroup_append {whole s : List Scalar} {minus seen : Bool} {changes : List (Flag × Bool)}
    {x : Token} {rest : List Scalar} (h : flagGroup whole minus seen changes s = .ok (x, rest))
    (whole' k : List Scalar) :
    flagGroup whole' minus seen changes (s ++ k) = .ok (x, rest ++ k) := by
  fun_induction flagGroup whole minus seen changes s <;>
    grind -linarith [flagGroup, refuse, refuseAll]

theorem flagGroup_head {whole s : List Scalar} {p : Scalar} {minus seen : Bool}
    {changes : List (Flag × Bool)} {x : Token} {rest : List Scalar}
    (h : flagGroup whole minus seen changes (p :: s) = .ok (x, rest)) :
    p.char ≠ 'P' ∧ p.char ≠ '<' := by
  grind -linarith [flagGroup, flag?, refuse, refuseAll]

theorem group_of_flags {open_ q p : Scalar} (mark : q.char = '?') (named : p.char ≠ 'P')
    (named' : p.char ≠ '<') (s : List Scalar) :
    group open_ (q :: p :: s) =
      flagGroup (open_ :: q :: p :: s) false false [] (p :: s) := by
  match s with
  | [] => simp [group, mark]
  | [b] => simp [group, mark, named']
  | b :: c :: s => simp [group, mark, named, named']

theorem group_append {open_ : Scalar} {s : List Scalar} {x : Token} {rest : List Scalar}
    (h : group open_ s = .ok (x, rest)) (k : List Scalar) :
    group open_ (s ++ paren :: k) = .ok (x, rest ++ paren :: k) := by
  have flags {q p : Scalar} {s : List Scalar} (mark : q.char = '?')
      (h : flagGroup (open_ :: q :: p :: s) false false [] (p :: s) = .ok (x, rest)) :
      group open_ (q :: p :: s ++ paren :: k) = .ok (x, rest ++ paren :: k) := by
    obtain ⟨named, named'⟩ := flagGroup_head h
    rw [List.cons_append, List.cons_append, group_of_flags mark named named']
    exact flagGroup_append h _ _
  match s, h with
  | [], h =>
    simp only [group] at h
    cases h
    rfl
  | q :: s, h =>
    by_cases mark : q.char = '?'
    · match s, h with
      | [], h => simp [group, mark, flagGroup, refuseAll] at h
      | [p], h => exact flags mark (by simpa [group, mark] using h)
      | [p, b], h =>
        by_cases named : p.char = '<'
        · simp only [group, mark, named] at h
          have := namedGroup_append h (paren :: k)
          simpa [group, mark, named] using this
        · exact flags mark (by simpa [group, mark, named] using h)
      | p :: b :: c :: s, h =>
        by_cases both : p.char = 'P' ∧ b.char = '<'
        · simp only [group, mark, both] at h
          have := namedGroup_append h (paren :: k)
          simpa [group, mark, both] using this
        · by_cases named : p.char = '<'
          · simp only [group, mark, named] at h
            have := namedGroup_append h (paren :: k)
            simpa [group, mark, named] using this
          · refine flags mark ?_
            simpa [group, mark, named, both] using h
    · simp only [group, beq_iff_eq, mark] at h
      cases h
      simp [group, mark]

/-! ### Repetition -/

theorem takeWhile_digits_append (s k : List Scalar) :
    (s ++ paren :: k).takeWhile (·.char.isDigit) = s.takeWhile (·.char.isDigit) := by
  induction s with
  | nil => simp
  | cons c s ih => simp [List.takeWhile_cons, ih]

theorem dropWhile_digits_append (s k : List Scalar) :
    (s ++ paren :: k).dropWhile (·.char.isDigit) =
      s.dropWhile (·.char.isDigit) ++ paren :: k := by
  induction s with
  | nil => simp
  | cons c s ih =>
    by_cases digit : c.char.isDigit <;> simp [digit, ih]

theorem number?_append (s k : List Scalar) :
    number? (s ++ paren :: k) = (number? s).map fun (n, rest) => (n, rest ++ paren :: k) := by
  unfold number?
  dsimp only
  rw [takeWhile_digits_append, dropWhile_digits_append]
  cases s with
  | nil => rfl
  | cons c s =>
    rw [List.cons_append, List.head?_cons, List.head?_cons]
    split <;> rfl

theorem counts?_append (s k : List Scalar) :
    counts? (s ++ paren :: k) = (counts? s).map fun (x, rest) => (x, rest ++ paren :: k) := by
  unfold counts?
  rw [number?_append]
  match number? s with
  | none => rfl
  | some (min, []) => simp
  | some (min, c :: rest) =>
    simp only [Option.map_some, List.cons_append]
    split
    · simp
    split
    · match rest with
      | [] => simp [number?]
      | d :: rest =>
        simp only [List.cons_append]
        split
        · simp
        · have := number?_append (d :: rest) k
          simp only [List.cons_append] at this
          rw [this]
          match number? (d :: rest) with
          | none => rfl
          | some (max, []) => simp
          | some (max, e :: rest) =>
            simp only [Option.map_some, List.cons_append]
            split <;> simp
    · simp

theorem repetition_append {count : Count} {mark s : List Scalar} (k : List Scalar) :
    repetition count mark (s ++ paren :: k) =
      ((repetition count mark s).1, (repetition count mark s).2 ++ paren :: k) := by
  cases s with
  | nil => simp [repetition]
  | cons c s =>
    simp only [repetition, List.cons_append]
    split <;> simp

theorem braces_append {brace : Scalar} {s : List Scalar} {x : Token} {rest : List Scalar}
    (h : braces brace s = .ok (x, rest)) (k : List Scalar) :
    braces brace (s ++ paren :: k) = .ok (x, rest ++ paren :: k) := by
  revert h
  unfold braces
  rw [counts?_append]
  cases counted : counts? s with
  | none =>
    intro h
    cases h
    rfl
  | some found =>
    obtain ⟨⟨min, max⟩, back⟩ := found
    have shorter := counts?_length s counted
    simp only [Option.map_some]
    split
    · simp [refuse]
    · intro h
      have same : (s ++ paren :: k).take
          ((s ++ paren :: k).length - (back ++ paren :: k).length) =
            s.take (s.length - back.length) := by
        rw [show (s ++ paren :: k).length - (back ++ paren :: k).length =
          s.length - back.length by simp; omega]
        exact List.take_append_of_le_length (by omega)
      rw [same, repetition_append]
      simp only [Except.ok.injEq] at h ⊢
      rw [h]

/-! ### Classes -/

theorem classChar_append {whole s : List Scalar} {x : Nat} {rest : List Scalar}
    (h : classChar whole s = .ok (x, rest)) (whole' k : List Scalar) :
    classChar whole' (s ++ paren :: k) = .ok (x, rest ++ paren :: k) := by
  cases s with
  | nil => simp [classChar, refuseAll] at h
  | cons c s =>
    revert h
    simp only [classChar, List.cons_append]
    split
    · exact fun h => escape_append h k
    split
    · simp [refuseAll]
    · intro h
      cases h
      rfl

/-- What is left of a class before its end: at least the closing bracket. -/
def Unclosed (s : List Scalar) : Prop := s ≠ [] ∧ ∀ c, s = [c] → c.char = ']'

theorem classRange_append {whole s : List Scalar} {x : SetItem} {rest : List Scalar}
    (h : classRange whole s = .ok (x, rest)) (left : Unclosed rest) (whole' k : List Scalar) :
    classRange whole' (s ++ paren :: k) = .ok (x, rest ++ paren :: k) := by
  unfold classRange at h ⊢
  cases first : classChar whole s with
  | error fault => simp [first] at h
  | ok found =>
    obtain ⟨low, back⟩ := found
    rw [classChar_append first whole' k]
    rw [first] at h
    match back, h with
    | [], h =>
      simp only at h
      cases h
      exact absurd rfl left.1
    | [c], h =>
      simp only at h
      cases h
      have := left.2 c rfl
      simp [this]
    | c :: e :: back, h =>
      simp only [List.cons_append] at h ⊢
      split at h
      · rw [if_pos ‹_›]
        cases second : classChar whole (e :: back) with
        | error fault => simp [second] at h
        | ok found =>
          obtain ⟨high, back'⟩ := found
          have := classChar_append second whole' k
          rw [List.cons_append] at this
          rw [this]
          simp only [second] at h ⊢
          split at h
          · simp [refuse] at h
          · rw [if_neg ‹_›]
            cases h
            rfl
      · rw [if_neg ‹_›]
        cases h
        rfl

theorem cutNamed?_append {s front back : List Scalar} (h : cutNamed? s = some (front, back))
    (k : List Scalar) : cutNamed? (s ++ k) = some (front, back ++ k) := by
  fun_induction cutNamed? s generalizing front back with
  | case1 => simp at h
  | case2 c s found =>
    cases h
    cases s with
    | nil => simp at found
    | cons d s => simp_all [cutNamed?]
  | case3 c s other missing ih => simp at h
  | case4 c s other front' back' cut ih =>
    cases h
    cases s with
    | nil => simp [cutNamed?] at cut
    | cons d s =>
      rw [List.cons_append, cutNamed?, ih cut]
      simp_all

/-- True if `m` is a first part of a text that ends in a bracket. -/
def UpToBracket (m s : List Scalar) : Prop :=
  m <+: s ∧ m.getLast?.map Scalar.char = some ']'

theorem cutNamed?_upTo {s front back : List Scalar} (h : cutNamed? s = some (front, back)) :
    ∃ m, s = m ++ back ∧ m.getLast?.map Scalar.char = some ']' ∧
      cutNamed? m = some (front, []) := by
  fun_induction cutNamed? s generalizing front back with
  | case1 => simp at h
  | case2 c s found =>
    cases h
    cases s with
    | nil => simp at found
    | cons d s => exact ⟨[c, d], rfl, by simp_all, by simp_all [cutNamed?]⟩
  | case3 c s other missing ih => simp at h
  | case4 c s other front' back' cut ih =>
    cases h
    obtain ⟨m, rfl, last, here⟩ := ih cut
    cases m with
    | nil => simp at last
    | cons d m => exact ⟨c :: d :: m, rfl, by simpa using last, by simp_all [cutNamed?]⟩

/-- A name that is looked for beyond a closing parenthesis runs over it, up to a bracket. -/
theorem cutNamed?_beyond {s : List Scalar} (h : cutNamed? s = none) {k front back : List Scalar}
    (found : cutNamed? (s ++ paren :: k) = some (front, back)) :
    paren ∈ front ∧ ∃ m, UpToBracket m k ∧ cutNamed? (s ++ paren :: m) = some (front, []) := by
  constructor
  · induction s generalizing front back with
    | nil =>
      simp only [List.nil_append, cutNamed?] at found
      grind -linarith [char_paren]
    | cons c s ih => cases s <;> grind -linarith [cutNamed?, char_paren]
  · obtain ⟨m, eq, last, here⟩ := cutNamed?_upTo found
    rw [List.append_cons, List.append_eq_append_iff] at eq
    obtain ⟨m', rfl, rfl⟩ | ⟨c, eq, rfl⟩ := eq
    · refine ⟨m', ⟨List.prefix_append _ _, ?_⟩, by simpa using here⟩
      cases m' with
      | nil => simp [char_paren] at last
      | cons d m' => simpa using last
    · -- the bracket would stand before the parenthesis
      exfalso
      obtain rfl | ⟨c, d, rfl⟩ := List.eq_nil_or_concat c
      · rw [List.append_nil] at eq
        subst eq
        simp [char_paren] at last
      · rw [List.concat_eq_append, ← List.append_assoc] at eq
        obtain ⟨rfl, -⟩ := List.append_inj' eq rfl
        rw [cutNamed?_append here] at h
        simp at h

/-- No class has a name with a parenthesis in it. -/
theorem namedClass?_paren {name : Bytes} (h : 41 ∈ name) : namedClass? name = none := by
  have known : ∀ entry ∈ namedClasses, 41 ∉ entry.1 := by decide
  have lookup (name : Bytes) (h : 41 ∈ name) : namedClasses.lookup name = none := by
    rw [List.lookup_eq_none_iff]
    intro entry mem
    have := known entry mem
    grind -linarith
  unfold namedClass?
  split
  · rw [lookup _ (by simpa using h)]
    rfl
  · rw [lookup _ h]
    rfl

/-- True if `[:` stands in a text. -/
def OpensName (s : List Scalar) : Prop :=
  ∃ o c, [o, c] <:+: s ∧ o.char = '[' ∧ c.char = ':'

theorem OpensName.of_suffix {s t : List Scalar} (h : OpensName t) (suffix : t <:+ s) :
    OpensName s := by
  obtain ⟨o, c, infixed, name⟩ := h
  exact ⟨o, c, infixed.trans suffix.isInfix, name⟩

/-- A reader that takes `s` and leaves `rest` of it stops before a parenthesis as it stops at the
    end. If `[:` stands in what it reads, it may meet a fault instead at a bracket, which nothing
    that follows the bracket can mend. -/
def Stops {α : Type} (s : List Scalar) (reader : List Scalar → Except Fault (α × List Scalar))
    (x : α) (rest : List Scalar) : Prop :=
  ∀ k, reader (paren :: k) = .ok (x, rest ++ paren :: k) ∨
    (OpensName s ∧ ∃ m, UpToBracket m k ∧ ∀ y, ∃ fault, reader (paren :: m ++ y) = .error fault)

theorem Stops.of_append {α : Type} {s rest : List Scalar}
    {reader : List Scalar → Except Fault (α × List Scalar)} {x : α}
    (h : ∀ k, reader (paren :: k) = .ok (x, rest ++ paren :: k)) : Stops s reader x rest :=
  fun k => .inl (h k)

theorem classItem_named {whole s : List Scalar} {o c : Scalar} (bracket : o.char = '[')
    (colon : c.char = ':') (more : s ≠ []) :
    classItem whole (o :: c :: s) =
      match cutNamed? s with
      | some (name, rest) =>
          match namedClass? (Bytes.ofScalars name) with
          | some item => .ok (item, rest)
          | none => refuse .invalidCharRange (o :: c :: s) rest
      | none => classRange whole (o :: c :: s) := by
  grind -linarith [classItem]

theorem classItem_plain {whole s : List Scalar} {o c : Scalar}
    (bracket : o.char = '[' → c.char ≠ ':') (slash : o.char ≠ '\\') :
    classItem whole (o :: c :: s) = classRange whole (o :: c :: s) := by
  simp only [classItem]
  split
  · simp_all
  · simp_all
  · rfl

theorem classItem_slash {whole s : List Scalar} {o c : Scalar} (slash : o.char = '\\') :
    classItem whole (o :: c :: s) =
      if c.char == 'p' || c.char == 'P' then property [o, c] (c.char == 'P') s
      else
        match letterClass? c.char with
        | some item => .ok (item, s)
        | none => classRange whole (o :: c :: s) := by
  grind -linarith [classItem]

theorem classItem_stops {whole s : List Scalar} {x : SetItem} {rest : List Scalar}
    (h : classItem whole s = .ok (x, rest)) (left : Unclosed rest)
    (whole' : List Scalar → List Scalar) :
    Stops s (fun z => classItem (whole' z) (s ++ z)) x rest := by
  have range (h : classRange whole s = .ok (x, rest))
      (same : ∀ k, classItem (whole' (paren :: k)) (s ++ paren :: k) =
        classRange (whole' (paren :: k)) (s ++ paren :: k)) :
      Stops s (fun z => classItem (whole' z) (s ++ z)) x rest :=
    .of_append fun k => (same k).trans (classRange_append h left _ k)
  match s, h with
  | [], h => simp [classItem, classRange, classChar, refuseAll] at h
  | [o], h =>
    refine range h fun k => classItem_plain (by simp) fun slash => ?_
    simp [classItem, classRange, classChar, slash, escape] at h
  | o :: c :: s, h =>
    by_cases slash : o.char = '\\'
    · rw [classItem_slash slash] at h
      split at h
      · refine .of_append fun k => ?_
        rw [List.cons_append, List.cons_append, classItem_slash slash, if_pos ‹_›]
        exact property_append h _
      · rename_i notProperty
        split at h
        · rename_i item letter
          cases h
          refine .of_append fun k => ?_
          rw [List.cons_append, List.cons_append, classItem_slash slash, if_neg notProperty, letter]
        · rename_i letter
          refine range h fun k => ?_
          rw [List.cons_append, List.cons_append, classItem_slash slash, if_neg notProperty, letter]
    · by_cases name : o.char = '[' ∧ c.char = ':'
      · obtain ⟨bracket, colon⟩ := name
        have more : s ≠ [] := by
          rintro rfl
          -- the colon would be left alone, without a bracket to close the class
          have valid : o.isStray = false := by
            simp [Scalar.isStray, bracket, Scalar.replacement]
          simp [classItem, bracket, classRange, classChar, valid] at h
          have := left.2 c h.2.symm
          simp [colon] at this
        have beyond (k : List Scalar) : s ++ paren :: k ≠ [] := by simp
        rw [classItem_named bracket colon more] at h
        cases cut : cutNamed? s with
        | some parts =>
          obtain ⟨name, back⟩ := parts
          refine .of_append fun k => ?_
          rw [List.cons_append, List.cons_append, classItem_named bracket colon (beyond k),
            cutNamed?_append cut]
          simp only [cut] at h ⊢
          split at h
          · cases h
            rfl
          · simp [refuse] at h
        | none =>
          simp only [cut] at h
          intro k
          cases far : cutNamed? (s ++ paren :: k) with
          | none =>
            left
            dsimp only
            rw [List.cons_append, List.cons_append, classItem_named bracket colon (beyond k), far]
            exact classRange_append h left _ k
          | some parts =>
            obtain ⟨name, back⟩ := parts
            right
            obtain ⟨here, m, upTo, far⟩ := cutNamed?_beyond cut far
            refine ⟨⟨o, c, ⟨[], s, rfl⟩, bracket, colon⟩, m, upTo, fun y => ?_⟩
            have mem : 41 ∈ Bytes.ofScalars name :=
              List.mem_flatMap.2 ⟨paren, here, by simp [paren, Scalar.ascii]⟩
            have farther : cutNamed? (s ++ (paren :: m ++ y)) = some (name, y) := by
              rw [← List.append_assoc]
              exact cutNamed?_append far y
            simp only [List.cons_append]
            rw [classItem_named bracket colon (by simp)]
            simp only [List.cons_append] at farther
            rw [farther]
            simp only [namedClass?_paren mem]
            exact ⟨_, rfl⟩
      · rw [classItem_plain (by tauto) slash] at h
        exact range h fun k => classItem_plain (by tauto) slash

/-- A class that is read to its end has something left as long as it is not closed. -/
theorem unclosed_of_classItems {whole s : List Scalar} {x : List SetItem} {rest : List Scalar}
    (h : classItems whole false s = .ok (x, rest)) : Unclosed s := by
  have nothing {x : List SetItem} {rest : List Scalar} :
      classItems whole false [] ≠ .ok (x, rest) := by
    unfold classItems
    simp [classItem, classRange, classChar, refuseAll]
  refine ⟨by rintro rfl; exact nothing h, ?_⟩
  rintro c rfl
  by_contra bracket
  unfold classItems at h
  simp only [Bool.not_false, List.head?_cons, Option.map_some, Bool.true_and, beq_iff_eq,
    Option.some.injEq, bracket, if_false] at h
  split at h
  · simp at h
  · rename_i item back first
    have short := classItem_length whole [c] first
    have : back = [] := by
      cases back with
      | nil => rfl
      | cons => simp at short
    subst this
    split at h
    · simp at h
    · rename_i ended
      exact nothing ended

theorem classItems_cons {whole s rest : List Scalar} {first : Bool} {item : SetItem}
    (going : ¬ (!first && s.head?.map Scalar.char == some ']') = true)
    (found : classItem whole s = .ok (item, rest)) :
    classItems whole first s =
      match classItems whole false rest with
      | .error fault => .error fault
      | .ok (items, rest) => .ok (item :: items, rest) := by
  rw [classItems, if_neg going]
  split
  · simp_all
  · rename_i found'
    rw [found] at found'
    cases found'
    rfl

theorem classItems_error {whole s : List Scalar} {first : Bool} {fault : Fault}
    (going : ¬ (!first && s.head?.map Scalar.char == some ']') = true)
    (failed : classItem whole s = .error fault) : classItems whole first s = .error fault := by
  rw [classItems, if_neg going]
  split
  · simp_all
  · simp_all

theorem classItems_stops {whole s : List Scalar} {first : Bool} {x : List SetItem}
    {rest : List Scalar} (h : classItems whole first s = .ok (x, rest))
    (whole' : List Scalar → List Scalar) :
    Stops s (fun z => classItems (whole' z) first (s ++ z)) x rest := by
  fun_induction classItems whole first s generalizing x rest with
  | case1 first s ended =>
    cases h
    refine .of_append fun k => ?_
    unfold classItems
    cases s with
    | nil => simp at ended
    | cons c s => simp_all
  | case2 first s going fault failed => simp at h
  | case3 first s going item back found _ fault failed ih => simp at h
  | case4 first s going item back found _ items end_ others ih =>
    cases h
    have head : ∀ z, ¬ (!first && (s ++ z).head?.map Scalar.char == some ']') = true := by
      intro z
      cases s with
      | nil => simp [classItem, classRange, classChar, refuseAll] at found
      | cons c s => simpa using going
    have step := classItem_stops found (unclosed_of_classItems others) whole'
    have shorter : back <:+ s := classItem_suffix found
    intro k
    obtain same | ⟨opens, m, upTo, failed⟩ := step k
    · obtain same' | ⟨opens, m, upTo, failed⟩ := ih others k
      · left
        dsimp only at same same' ⊢
        rw [classItems_cons (head _) same, same']
      · right
        refine ⟨opens.of_suffix shorter, m, upTo, fun y => ?_⟩
        obtain ⟨fault, failed⟩ := failed y
        dsimp only at failed ⊢
        obtain same | ⟨-, m', ⟨⟨y', before⟩, -⟩, failed'⟩ := step (m ++ y)
        · refine ⟨fault, ?_⟩
          dsimp only at same
          rw [List.cons_append] at failed ⊢
          rw [classItems_cons (head _) same, failed]
        · obtain ⟨fault, failed'⟩ := failed' y'
          dsimp only at failed'
          rw [List.cons_append, before] at failed'
          exact ⟨fault, classItems_error (head _) failed'⟩
    · right
      refine ⟨opens, m, upTo, fun y => ?_⟩
      obtain ⟨fault, failed⟩ := failed y
      exact ⟨fault, classItems_error (head _) failed⟩

end Token

end Pattern

end Rulebook

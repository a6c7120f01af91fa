import Rulebook.Proofs.Pattern.Token

/-!
# Scanning a part of a pattern

The tokens of a pattern that is pasted into a larger one, between parentheses, are the tokens it has
by itself, unless it ends inside quoted text, which then runs on, or holds `[:` that is closed
behind it, which is a fault.
-/

namespace Rulebook

namespace Pattern

namespace Token

/-! ### Quoted text -/

/-- True if `\E` stands in a text. -/
def endsQuote : List Scalar → Bool
  | [] => false
  | s :: rest =>
      (s.char == '\\' && (rest.head?.map Scalar.char) == some 'E') || endsQuote rest

theorem cutQuoted_suffix (s : List Scalar) : (cutQuoted s).2 <:+ s := by
  fun_induction cutQuoted s <;> grind -linarith [suffix_cons_of, List.tail_suffix]

theorem cutQuoted_append {s : List Scalar} (h : endsQuote s = true) (k : List Scalar) :
    cutQuoted (s ++ k) = ((cutQuoted s).1, (cutQuoted s).2 ++ k) := by
  induction s with
  | nil => simp [endsQuote] at h
  | cons c s ih =>
    cases s with
    | nil => simp [endsQuote] at h
    | cons d s => grind -linarith [cutQuoted, endsQuote]

theorem cutQuoted_open {s : List Scalar} (h : endsQuote s = false) : cutQuoted s = (s, []) := by
  induction s with
  | nil => rfl
  | cons c s ih => grind -linarith [cutQuoted, endsQuote]

theorem endsQuote_append {s : List Scalar} (h : endsQuote s = false) {k : List Scalar}
    (h' : endsQuote (paren :: k) = false) : endsQuote (s ++ paren :: k) = false := by
  induction s with
  | nil => exact h'
  | cons c s ih => cases s <;> grind -linarith [endsQuote, char_paren]

theorem quotedChars_append {s t : List Scalar} {xs : List Token}
    (h : quotedChars s = xs.map .ok) : quotedChars (s ++ t) = xs.map .ok ++ quotedChars t := by
  induction s generalizing xs with
  | nil =>
    cases xs with
    | nil => rfl
    | cons => simp [quotedChars] at h
  | cons c s ih =>
    simp only [quotedChars, List.cons_append] at h ⊢
    split at h
    · cases xs with
      | nil => simp at h
      | cons => simp [refuseAll] at h
    · rw [if_neg ‹_›]
      cases xs with
      | nil => simp at h
      | cons x xs =>
        simp only [List.map_cons, List.cons.injEq] at h
        rw [ih h.2, h.1]
        rfl

/-! ### One token -/

/-- The members of a class follow its bracket, or the caret after it. -/
theorem bracketClass_eq (bracket : Scalar) (s : List Scalar) :
    ∃ negated members, members <:+ s ∧
      ∀ z, s ≠ [] → bracketClass bracket (s ++ z) =
        match classItems (bracket :: (s ++ z)) true (members ++ z) with
        | .error fault => .error fault
        | .ok (items, rest) => .ok (.set items negated, rest) := by
  cases s with
  | nil => exact ⟨false, [], List.suffix_rfl, by simp⟩
  | cons c s =>
    by_cases caret : c.char = '^'
    · refine ⟨true, s, List.suffix_cons c s, fun z _ => ?_⟩
      rw [bracketClass, show ((c :: s ++ z).head?.map Scalar.char == some '^') = true by simp [caret]]
      exact rfl
    · refine ⟨false, c :: s, List.suffix_rfl, fun z _ => ?_⟩
      rw [bracketClass, show ((c :: s ++ z).head?.map Scalar.char == some '^') = false by simp [caret]]
      exact rfl

theorem bracketClass_stops {bracket : Scalar} {s : List Scalar} {x : Token} {rest : List Scalar}
    (h : bracketClass bracket s = .ok (x, rest)) :
    Stops s (fun z => bracketClass bracket (s ++ z)) x rest := by
  have more : s ≠ [] := by
    rintro rfl
    unfold bracketClass classItems at h
    simp [classItem, classRange, classChar, refuseAll] at h
  obtain ⟨negated, members, part, eq⟩ := bracketClass_eq bracket s
  have here := eq [] more
  simp only [List.append_nil] at here
  rw [here] at h
  split at h
  · simp at h
  · rename_i items back found
    cases h
    intro k
    obtain same | ⟨opens, m, upTo, failed⟩ :=
      classItems_stops found (fun z => bracket :: (s ++ z)) k
    · left
      dsimp only at same ⊢
      rw [eq _ more, same]
    · refine .inr ⟨opens.of_suffix part, m, upTo, fun y => ?_⟩
      obtain ⟨fault, failed⟩ := failed y
      dsimp only at failed ⊢
      exact ⟨fault, by rw [eq _ more, failed]⟩

/-- True if a quoted text starts here that is not closed. -/
def QuoteOpen (c : Scalar) (s : List Scalar) : Prop :=
  c.char = '\\' ∧ ∃ q t, s = q :: t ∧ q.char = 'Q' ∧ endsQuote t = false

theorem alone_append (reader : List Scalar → Except Fault (Token × List Scalar)) {s : List Scalar}
    (h : ∀ x rest, reader s = .ok (x, rest) → Stops s (fun z => reader (s ++ z)) x rest)
    {xs : List Token} (clean : (alone (reader s)).1 = xs.map .ok) (k : List Scalar) :
    alone (reader (s ++ paren :: k)) = ((alone (reader s)).1, (alone (reader s)).2 ++ paren :: k) ∨
      (OpensName s ∧ ∃ m, UpToBracket m k ∧
        ∀ y, ∃ fault, alone (reader (s ++ (paren :: m ++ y))) = ([.error fault], [])) := by
  cases read : reader s with
  | error fault =>
    rw [read] at clean
    cases xs <;> simp [alone] at clean
  | ok found =>
    obtain ⟨x, rest⟩ := found
    obtain same | ⟨opens, m, upTo, failed⟩ := h x rest read k
    · left
      dsimp only at same
      rw [same]
      rfl
    · refine .inr ⟨opens, m, upTo, fun y => ?_⟩
      obtain ⟨fault, failed⟩ := failed y
      dsimp only at failed
      exact ⟨fault, by rw [failed]; rfl⟩

theorem escapedChar_append {slash : Scalar} {s : List Scalar} {xs : List Token}
    (clean : (escapedChar (escape slash s)).1 = xs.map .ok) (k : List Scalar) :
    escapedChar (escape slash (s ++ paren :: k)) =
      ((escapedChar (escape slash s)).1, (escapedChar (escape slash s)).2 ++ paren :: k) := by
  cases read : escape slash s with
  | error fault =>
    rw [read] at clean
    cases xs <;> simp [escapedChar] at clean
  | ok found =>
    obtain ⟨x, rest⟩ := found
    rw [escape_append read k]
    rfl

theorem classAlone_append {mark s : List Scalar} {negated : Bool} {xs : List Token}
    (clean : (classAlone (property mark negated s)).1 = xs.map .ok) (k : List Scalar) :
    classAlone (property mark negated (s ++ k)) =
      ((classAlone (property mark negated s)).1, (classAlone (property mark negated s)).2 ++ k) := by
  cases read : property mark negated s with
  | error fault =>
    rw [read] at clean
    cases xs <;> simp [classAlone] at clean
  | ok found =>
    obtain ⟨x, rest⟩ := found
    rw [property_append read k]
    rfl

theorem backslash_append {slash : Scalar} {s : List Scalar} (isSlash : slash.char = '\\')
    {xs : List Token} (clean : (backslash slash s).1 = xs.map .ok) (closed : ¬ QuoteOpen slash s)
    (k : List Scalar) :
    backslash slash (s ++ paren :: k) =
      ((backslash slash s).1, (backslash slash s).2 ++ paren :: k) := by
  cases s with
  | nil =>
    simp only [backslash, escape, escapedChar] at clean
    cases xs <;> simp at clean
  | cons c s =>
    revert clean
    simp only [backslash, List.cons_append]
    split <;> intro clean
    · rfl
    · rfl
    · rfl
    · rfl
    · have ends : endsQuote s = true := by
        by_contra open_
        exact closed ⟨isSlash, c, s, rfl, ‹_›, by simpa using open_⟩
      rw [cutQuoted_append ends]
    · exact classAlone_append clean _
    · exact classAlone_append clean _
    · revert clean
      split <;> intro clean
      · rfl
      · exact escapedChar_append clean k

theorem next_append {c : Scalar} {s : List Scalar} {xs : List Token}
    (clean : (next c s).1 = xs.map .ok) (closed : ¬ QuoteOpen c s) (k : List Scalar) :
    next c (s ++ paren :: k) = ((next c s).1, (next c s).2 ++ paren :: k) ∨
      (OpensName s ∧ ∃ m, UpToBracket m k ∧
        ∀ y, ∃ fault, next c (s ++ (paren :: m ++ y)) = ([.error fault], [])) := by
  revert clean
  unfold next
  split <;> intro clean
  · refine alone_append (group c) (fun x rest h => .of_append fun k => ?_) clean k
    exact group_append h k
  · exact .inl rfl
  · exact .inl rfl
  · exact .inl rfl
  · exact .inl rfl
  · exact .inl rfl
  · exact alone_append (bracketClass c) (fun x rest h => bracketClass_stops h) clean k
  · left
    rw [repetition_append]
    rfl
  · left
    rw [repetition_append]
    rfl
  · left
    rw [repetition_append]
    rfl
  · refine alone_append (braces c) (fun x rest h => .of_append fun k => ?_) clean k
    exact braces_append h k
  · exact .inl (backslash_append ‹_› clean closed k)
  · left
    split
    · rename_i stray
      rw [if_pos stray] at clean
      cases xs <;> simp [refuseAll] at clean
    · rfl

theorem backslash_suffix (slash : Scalar) (s : List Scalar) : (backslash slash s).2 <:+ s := by
  have escaped : (escapedChar (escape slash s)).2 <:+ s := by
    cases read : escape slash s with
    | error fault => exact List.nil_suffix
    | ok found => exact escape_suffix read
  have ofProperty (mark : List Scalar) (negated : Bool) (t : List Scalar) :
      (classAlone (property mark negated t)).2 <:+ t := by
    cases read : property mark negated t with
    | error fault => exact List.nil_suffix
    | ok found => exact property_suffix read
  fun_cases backslash slash s <;> grind -linarith [suffix_cons_of, cutQuoted_suffix]

theorem next_suffix (c : Scalar) (s : List Scalar) : (next c s).2 <:+ s := by
  have alone_suffix {taken : Except Fault (Token × List Scalar)}
      (h : ∀ x rest, taken = .ok (x, rest) → rest <:+ s) : (alone taken).2 <:+ s := by
    fun_cases alone taken
    · exact List.nil_suffix
    · exact h _ _ rfl
  fun_cases next c s
  case case1 => exact alone_suffix fun _ _ h => group_suffix h
  case case7 => exact alone_suffix fun _ _ h => bracketClass_suffix h
  case case8 => exact repetition_suffix .star [c] s
  case case9 => exact repetition_suffix .plus [c] s
  case case10 => exact repetition_suffix .opt [c] s
  case case11 => exact alone_suffix fun _ _ h => braces_suffix h
  case case12 => exact backslash_suffix c s
  case case13 => exact List.nil_suffix
  all_goals exact List.suffix_rfl

/-! ### Tokens one after another -/

/-- True of tokens none of which has a fault. -/
def Clean (tokens : List (Except Fault Token)) : Prop := ∃ xs : List Token, tokens = xs.map .ok

theorem Clean.append_iff {a b : List (Except Fault Token)} : Clean (a ++ b) ↔ Clean a ∧ Clean b := by
  constructor
  · rintro ⟨xs, h⟩
    obtain ⟨as, bs, rfl, rfl, rfl⟩ := List.map_eq_append_iff.1 h.symm
    exact ⟨⟨as, rfl⟩, ⟨bs, rfl⟩⟩
  · rintro ⟨⟨as, rfl⟩, ⟨bs, rfl⟩⟩
    exact ⟨as ++ bs, by simp⟩

theorem not_clean_error (fault : Fault) (rest : List (Except Fault Token)) :
    ¬ Clean (.error fault :: rest) := by
  rintro ⟨xs, h⟩
  cases xs <;> simp at h

@[simp] theorem scan_nil : scan [] = [] := by
  rw [scan]

theorem scan_cons (c : Scalar) (s : List Scalar) :
    scan (c :: s) = (next c s).1 ++ scan (next c s).2 := by
  rw [scan]

/-- True of a pattern that ends inside quoted text. -/
inductive Quoting : List Scalar → Prop
  | here {c : Scalar} {s : List Scalar} (h : QuoteOpen c s) : Quoting (c :: s)
  | later {c : Scalar} {s : List Scalar} (h : Quoting (next c s).2) : Quoting (c :: s)

/-- The tokens of a pattern before a parenthesis are its own, unless it holds `[:` and what follows
    makes that a fault. -/
theorem scan_stops {s : List Scalar} {xs : List Token} (h : scan s = xs.map .ok)
    (closed : ¬ Quoting s) (k : List Scalar) :
    scan (s ++ paren :: k) = xs.map .ok ++ scan (paren :: k) ∨
      (OpensName s ∧ ∃ m, UpToBracket m k ∧
        ∀ y, ¬ Clean (scan (s ++ (paren :: m ++ y)))) := by
  induction hn : s.length using Nat.strongRecOn generalizing s xs k with
  | _ n ih =>
    cases s with
    | nil =>
      rw [scan] at h
      cases xs with
      | nil => exact .inl rfl
      | cons => simp at h
    | cons c s =>
      rw [scan_cons] at h
      obtain ⟨ts, us, rfl, taken, others⟩ := List.map_eq_append_iff.1 h.symm
      have shorter : (next c s).2.length < n := by
        subst hn
        exact Nat.lt_succ_of_le (next_length c s)
      have later := fun k => ih _ shorter others.symm (fun q => closed (.later q)) k rfl
      have first := fun k => next_append taken.symm (fun q => closed (.here q)) k
      obtain same | ⟨opens, m, upTo, failed⟩ := first k
      · obtain same' | ⟨opens, m, upTo, failed⟩ := later k
        · left
          rw [List.cons_append, scan_cons, same, same', ← taken]
          simp
        · refine .inr ⟨opens.of_suffix ((next_suffix c s).trans (List.suffix_cons c s)), m, upTo,
            fun y clean => ?_⟩
          rw [List.cons_append, scan_cons] at clean
          obtain same | ⟨-, m', ⟨⟨y', before⟩, -⟩, failed'⟩ := first (m ++ y)
          · rw [List.cons_append, same] at clean
            exact failed y (Clean.append_iff.1 clean).2
          · obtain ⟨fault, failed'⟩ := failed' y'
            rw [List.cons_append, before] at failed'
            rw [List.cons_append, failed'] at clean
            exact not_clean_error _ _ clean
      · refine .inr ⟨opens.of_suffix (List.suffix_cons c s), m, upTo, fun y clean => ?_⟩
        obtain ⟨fault, failed⟩ := failed y
        rw [List.cons_append, scan_cons, failed] at clean
        exact not_clean_error _ _ clean

theorem next_of_quoteOpen {c : Scalar} {s : List Scalar} (h : QuoteOpen c s) :
    ∃ t, (∀ k, endsQuote (paren :: k) = false →
      next c (s ++ paren :: k) = (.ok (.change []) :: quotedChars (t ++ paren :: k), [])) ∧
      next c s = (.ok (.change []) :: quotedChars t, []) := by
  obtain ⟨slash, q, t, rfl, quote, open_⟩ := h
  refine ⟨t, fun k open' => ?_, ?_⟩
  · simp only [next, slash, backslash, List.cons_append, quote]
    rw [cutQuoted_open (endsQuote_append open_ open')]
  · simp only [next, slash, backslash, quote]
    rw [cutQuoted_open open_]

/-- A pattern that ends inside quoted text takes in what follows, character by character. -/
theorem scan_quoting {s : List Scalar} (quoting : Quoting s) {xs : List Token}
    (h : scan s = xs.map .ok) {k : List Scalar} (open_ : endsQuote (paren :: k) = false)
    {ks : List Token} (chars : quotedChars (paren :: k) = ks.map .ok) :
    scan (s ++ paren :: k) = (xs ++ ks).map .ok ∨ ¬ Clean (scan (s ++ paren :: k)) := by
  induction quoting generalizing xs with
  | @here c s starts =>
    obtain ⟨t, beyond, here⟩ := next_of_quoteOpen starts
    left
    rw [scan_cons, here, scan, List.append_nil] at h
    obtain ⟨x, ts, rfl, first, rest⟩ := List.map_eq_cons_iff.1 h.symm
    rw [List.cons_append, scan_cons, beyond k open_, scan, List.append_nil,
      quotedChars_append rest.symm, chars, ← first]
    simp
  | @later c s rest ih =>
    rw [scan_cons] at h
    obtain ⟨ts, us, rfl, taken, others⟩ := List.map_eq_append_iff.1 h.symm
    by_cases starts : QuoteOpen c s
    · obtain ⟨t, -, here⟩ := next_of_quoteOpen starts
      rw [here] at rest
      cases rest
    · obtain same | ⟨-, m, ⟨⟨y, rfl⟩, -⟩, failed⟩ := next_append taken.symm starts k
      · rw [List.cons_append, scan_cons, same]
        obtain same' | unclean := ih others.symm
        · left
          rw [same', ← taken]
          simp
        · exact .inr fun clean => unclean (Clean.append_iff.1 clean).2
      · right
        obtain ⟨fault, failed⟩ := failed y
        rw [List.cons_append] at failed
        rw [List.cons_append, scan_cons, failed]
        exact not_clean_error _ _

end Token

end Pattern

end Rulebook

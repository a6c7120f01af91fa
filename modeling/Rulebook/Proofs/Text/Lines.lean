import Rulebook.Marker
import Rulebook.Proofs.Text.Scalar

/-!
# Lines of a text

A text is the sequence of its lines, each with its line break, and no character crosses from one
line into the next. So the position after some lines is reached line by line.
-/

namespace Rulebook

namespace Bytes

/-- True of texts each of which is a line: it ends with its only line break, and the last may have
    none. -/
inductive Lines : List Bytes → Prop where
  | nil : Lines []
  | last {l : Bytes} (some_byte : l ≠ []) (whole : 10 ∉ l) : Lines [l]
  | cons {l : Bytes} {rest : List Bytes} (whole : 10 ∉ l) (others : Lines rest) :
      Lines ((l ++ [10]) :: rest)

theorem Lines.tail {l : Bytes} {rest : List Bytes} (h : Lines (l :: rest)) : Lines rest := by
  cases h with
  | last => exact .nil
  | cons _ others => exact others

theorem Lines.ne_nil {l : Bytes} {rest : List Bytes} (h : Lines (l :: rest)) : l ≠ [] := by
  cases h with
  | last some_byte _ => exact some_byte
  | cons => simp

theorem lines_cutLines (s : Bytes) : Lines (cutLines s) := by
  fun_induction cutLines s with
  | case1 => exact .nil
  | case2 b rest isBreak ih =>
    obtain rfl : b = 10 := by simpa using isBreak
    exact .cons (l := []) (by simp) ih
  | case3 b rest other none ih =>
    have other : b ≠ 10 := by simpa using other
    exact .last (by simp) (by simp [other.symm])
  | case4 b rest other line lines eq ih =>
    have other : b ≠ 10 := by simpa using other
    have other := other.symm
    rw [eq] at ih
    cases ih with
    | last some_byte whole => exact .last (by simp) (by simp [other, whole])
    | @cons l _ whole others => exact .cons (l := b :: l) (by simp [other, whole]) others

theorem flatten_cutLines (s : Bytes) : (cutLines s).flatten = s := by
  fun_induction cutLines s with
  | case1 => rfl
  | case2 b rest _ ih => simp [ih]
  | case3 b rest _ none ih =>
    rw [none] at ih
    simp [← ih]
  | case4 b rest _ line lines eq ih =>
    rw [eq] at ih
    simp [← ih]

theorem cutLines_line {l : Bytes} (whole : 10 ∉ l) (rest : Bytes) :
    cutLines (l ++ 10 :: rest) = (l ++ [10]) :: cutLines rest := by
  induction l with
  | nil => simp [cutLines]
  | cons b l ih =>
    obtain ⟨other, whole⟩ : 10 ≠ b ∧ 10 ∉ l := by simpa using whole
    rw [List.cons_append, cutLines, if_neg (by simpa using other.symm), ih whole]
    rfl

theorem cutLines_last {l : Bytes} (some_byte : l ≠ []) (whole : 10 ∉ l) : cutLines l = [l] := by
  induction l with
  | nil => exact absurd rfl some_byte
  | cons b l ih =>
    obtain ⟨other, whole⟩ : 10 ≠ b ∧ 10 ∉ l := by simpa using whole
    rw [cutLines, if_neg (by simpa using other.symm)]
    cases l with
    | nil => rfl
    | cons b' l => rw [ih (by simp) whole]

/-- Lines are what their text is cut into. -/
theorem Lines.cutLines_flatten {ls : List Bytes} (h : Lines ls) : cutLines ls.flatten = ls := by
  induction h with
  | nil => rfl
  | last some_byte whole => simpa using cutLines_last some_byte whole
  | @cons l rest whole _ ih =>
    rw [List.flatten_cons, List.append_assoc, List.singleton_append, cutLines_line whole, ih]

/-- Some of the lines of a text are the lines of another. -/
theorem Lines.sublist {ls ls' : List Bytes} (h : Lines ls) (sub : ls'.Sublist ls) : Lines ls' := by
  induction h generalizing ls' with
  | nil =>
    rw [List.sublist_nil.1 sub]
    exact .nil
  | last some_byte whole =>
    cases sub with
    | cons _ sub =>
      rw [List.sublist_nil.1 sub]
      exact .nil
    | cons_cons _ sub =>
      rw [List.sublist_nil.1 sub]
      exact .last some_byte whole
  | cons whole _ ih =>
    cases sub with
    | cons _ sub => exact ih sub
    | cons_cons _ sub => exact .cons whole (ih sub)

/-- The only line break of a line is at its end. -/
theorem Lines.notMem_take {l : Bytes} {rest : List Bytes} (lines : Lines (l :: rest)) {k : Nat}
    (inside : k < l.length) : 10 ∉ l.take k := by
  cases lines with
  | last some_byte whole => exact fun mem => whole (List.mem_of_mem_take mem)
  | @cons l' rest whole others =>
    rw [List.length_append, List.length_singleton] at inside
    rw [List.take_append_of_le_length (by omega)]
    exact fun mem => whole (List.mem_of_mem_take mem)

/-- True of a text that is empty or ends with a line break. -/
def Ended (s : Bytes) : Prop := s = [] ∨ s.getLast? = some 10

theorem Lines.append {ls ls' : List Bytes} (h : Lines ls) (ended : Ended ls.flatten)
    (h' : Lines ls') : Lines (ls ++ ls') := by
  induction h with
  | nil => exact h'
  | @last l some_byte whole =>
    rw [List.flatten_singleton] at ended
    obtain none | last := ended
    · exact absurd none some_byte
    · exact absurd (List.mem_of_getLast? last) whole
  | @cons l rest whole _ ih =>
    refine .cons whole (ih ?_)
    obtain none | last := ended
    · simp at none
    · rw [List.flatten_cons, List.getLast?_append] at last
      cases eq : rest.flatten.getLast? with
      | none => exact .inl (List.getLast?_eq_none_iff.1 eq)
      | some b =>
        rw [eq] at last
        exact .inr (eq.trans last)

theorem Lines.exists_break {l : Bytes} {rest : List Bytes} (h : Lines (l :: rest))
    (some_line : rest ≠ []) : ∃ whole, l = whole ++ [10] := by
  cases h with
  | last => exact absurd rfl some_line
  | cons => exact ⟨_, rfl⟩

/-- What stands before a line ends with a line break. -/
theorem Lines.ended {front back : List Bytes} {l : Bytes} (h : Lines (front ++ l :: back)) :
    Ended front.flatten := by
  induction front with
  | nil => exact .inl rfl
  | cons first rest ih =>
    obtain ⟨whole, rfl⟩ := h.exists_break (by simp)
    refine .inr ?_
    rw [List.flatten_cons, List.getLast?_append]
    obtain none | last := ih h.tail
    · rw [none]
      simp
    · rw [last]
      rfl

/-- A text may be cut between two of its lines. -/
theorem cutLines_append {s : Bytes} (ended : Ended s) (t : Bytes) :
    cutLines (s ++ t) = cutLines s ++ cutLines t := by
  have lines := (lines_cutLines s).append (by rwa [flatten_cutLines]) (lines_cutLines t)
  rw [← lines.cutLines_flatten, List.flatten_append, flatten_cutLines, flatten_cutLines]

/-! ### Last lines -/

/-- A text without a line break runs on in the last line. -/
theorem lastLine_append {s t : Bytes} (whole : 10 ∉ t) : lastLine (s ++ t) = lastLine s ++ t := by
  rw [lastLine, List.reverse_append, List.takeWhile_append_of_pos, List.reverse_append,
    List.reverse_reverse, lastLine]
  intro b mem
  have other : b ≠ 10 := fun same => whole (same ▸ List.mem_reverse.1 mem)
  simpa using other

theorem lastLine_whole {t : Bytes} (whole : 10 ∉ t) : lastLine t = t := lastLine_append (s := []) whole

/-- A text ends with its last line. -/
theorem exists_lastLine (s : Bytes) : ∃ front, s = front ++ lastLine s ∧ Ended front := by
  refine ⟨(s.reverse.dropWhile (· != 10)).reverse, ?_, ?_⟩
  · rw [lastLine, ← List.reverse_append, List.takeWhile_append_dropWhile, List.reverse_reverse]
  · cases rest : s.reverse.dropWhile (· != 10) with
    | nil => exact .inl rfl
    | cons c more =>
      have found := List.head?_dropWhile_not (· != 10) s.reverse
      rw [rest] at found
      obtain rfl : c = 10 := by simpa using found
      exact .inr (by simp)

/-! ### Characters of lines -/

theorem Lines.scalars_append {l : Bytes} {rest : List Bytes} (h : Lines (l :: rest)) :
    scalars (l ++ rest.flatten) = l.scalars ++ scalars rest.flatten := by
  cases h with
  | last => simp
  | cons =>
    rw [List.append_assoc, List.singleton_append, scalars_snoc_ascii _ (by decide)]

/-- The characters of lines are those of the first lines and those of the others. -/
theorem Lines.scalars_flatten_append {ls ls' : List Bytes} (h : Lines (ls ++ ls')) :
    scalars (ls ++ ls').flatten = scalars ls.flatten ++ scalars ls'.flatten := by
  induction ls with
  | nil => rfl
  | cons l rest ih =>
    have front : Lines (l :: rest) := h.sublist (List.sublist_append_left ..)
    rw [List.cons_append] at h ⊢
    rw [List.flatten_cons, h.scalars_append, ih h.tail, List.flatten_cons, front.scalars_append,
      List.append_assoc]

/-- No character lies across the end of a line. -/
theorem Ended.scalars_append {s : Bytes} (ended : Ended s) (t : Bytes) :
    scalars (s ++ t) = s.scalars ++ t.scalars := by
  have lines := (lines_cutLines s).append (by rwa [flatten_cutLines]) (lines_cutLines t)
  simpa only [List.flatten_append, flatten_cutLines] using lines.scalars_flatten_append

/-- A character of ASCII is read from its byte alone. -/
theorem exists_ascii_of_mem {c : Scalar} {s : Bytes} (mem : c ∈ s.scalars) (low : c.code < 0x80) :
    ∃ a ∈ s, a < 0x80 ∧ c = .ascii a := by
  induction n : s.length using Nat.strongRecOn generalizing s with
  | _ n ih =>
  cases s with
  | nil => cases mem
  | cons b rest =>
    rw [scalars_cons] at mem
    obtain rfl | mem := List.mem_cons.1 mem
    · by_cases ascii : b < 0x80
      · exact ⟨b, List.mem_cons_self .., ascii, Scalar.ofHead_ascii ascii rest⟩
      · have high := Scalar.code_ofHead ascii rest
        omega
    · obtain ⟨a, mem, found⟩ := ih _ (by
        rw [← n, List.length_cons, List.length_drop]
        omega) mem rfl
      exact ⟨a, List.mem_cons_of_mem _ (List.mem_of_mem_drop mem), found⟩

/-- Only a byte of ASCII is read as its character. -/
theorem mem_of_code_eq {a : UInt8} (ascii : a < 0x80) {c : Scalar} (code : c.code = a.toNat)
    {s : Bytes} (mem : c ∈ s.scalars) : a ∈ s := by
  have low : a.toNat < 128 := ascii
  obtain ⟨b, mem, ascii', rfl⟩ := exists_ascii_of_mem mem (by omega)
  rw [Scalar.code_ascii ascii'] at code
  rwa [← UInt8.toNat_inj.1 code]

/-- A byte of ASCII is a character. -/
theorem ascii_mem_scalars {a : UInt8} (ascii : a < 0x80) {s : Bytes} (mem : a ∈ s) :
    .ascii a ∈ s.scalars := by
  obtain ⟨front, back, rfl⟩ := List.append_of_mem mem
  rw [scalars_append_ascii front ascii, scalars_cons_ascii ascii]
  simp

/-- Characters of ASCII in a text are its bytes. -/
theorem exists_bytes_of_codes {s : Bytes} {w : List Scalar} (sub : ∀ x ∈ w, x ∈ s.scalars)
    (low : ∀ x ∈ w, x.code < 0x80) :
    ∃ t : Bytes, (∀ a ∈ t, a < 0x80) ∧ w = t.map Scalar.ascii := by
  induction w with
  | nil => exact ⟨[], List.forall_mem_nil _, rfl⟩
  | cons x w ih =>
    obtain ⟨here, others⟩ := List.forall_mem_cons.1 sub
    obtain ⟨low, lows⟩ := List.forall_mem_cons.1 low
    obtain ⟨a, -, ascii, rfl⟩ := exists_ascii_of_mem here low
    obtain ⟨t, asciis, rfl⟩ := ih others lows
    exact ⟨a :: t, List.forall_mem_cons.2 ⟨ascii, asciis⟩, rfl⟩

theorem ofScalars_map_ascii (t : Bytes) : ofScalars (t.map Scalar.ascii) = t := by
  induction t with
  | nil => rfl
  | cons a t ih =>
    rw [List.map_cons, ofScalars_cons, ih]
    rfl

end Bytes

namespace Position

theorem lastLine_line (l t : Bytes) : ((l ++ [10]) ++ t).lastLine = t.lastLine := by
  have reversed : ((l ++ [10]) ++ t).reverse = t.reverse ++ 10 :: l.reverse := by simp
  rw [Bytes.lastLine, Bytes.lastLine, reversed, List.takeWhile_append]
  split
  · rw [List.takeWhile_cons_of_neg (by decide), List.append_nil]
    have whole := List.takeWhile_prefix (p := (· != 10)) (l := t.reverse)
    rw [whole.eq_of_length ‹_›]
  · rfl

theorem lastLine_of_ended {s : Bytes} (ended : s.Ended) : s.lastLine = [] := by
  obtain rfl | last := ended
  · rfl
  · obtain ⟨l, rfl⟩ := List.getLast?_eq_some_iff.1 last
    have same := lastLine_line l []
    rwa [List.append_nil] at same

/-- The position after a line, and after what follows it. -/
theorem advance_line (p : Position) (l t : Bytes) :
    (p.advance (l ++ [10])).advance t = p.advance ((l ++ [10]) ++ t) := by
  have none : Bytes.lastLine (l ++ [10]) = [] := lastLine_of_ended (.inr List.getLast?_concat)
  simp only [advance, lastLine_line, none, List.length_append, List.count_append,
    Bytes.scalars_nil, List.length_nil]
  simp only [Position.mk.injEq, true_and]
  refine ⟨by omega, by omega, ?_⟩
  split <;> simp

theorem line_advance {p : Position} {t : Bytes} (whole : 10 ∉ t) : (p.advance t).line = p.line := by
  simp [advance, List.count_eq_zero.2 whole]

@[simp] theorem advance_nil (p : Position) : p.advance [] = p := by
  simp [advance, Bytes.lastLine]

/-- The position after some lines, and after what follows them. -/
theorem advance_append {s : Bytes} (ended : s.Ended) (p : Position) (t : Bytes) :
    (p.advance s).advance t = p.advance (s ++ t) := by
  obtain rfl | last := ended
  · rw [advance_nil, List.nil_append]
  · obtain ⟨l, rfl⟩ := List.getLast?_eq_some_iff.1 last
    exact p.advance_line l t

end Position

namespace Marker

variable {m : Marker} {l more : Bytes} {k : Nat}

theorem distance_add (fits : k ≤ m.rest.length) : m.distance (m.position.offset + k) = .ok k := by
  rw [distance, if_neg (by omega), if_pos (by omega)]
  congr 1
  omega

/-- A marker can move into what stands at it. -/
theorem seek_add (fits : k ≤ m.rest.length) : m.seek (m.position.offset + k) = .ok (m.forward k) := by
  rw [seek, distance_add fits]

/-- The position of a place in what stands at a marker. -/
theorem locate_add (text : m.rest = l ++ more) (fits : k ≤ l.length) :
    m.locate (m.position.offset + k) = .ok (m.position.advance (l.take k)) := by
  have inside : k ≤ m.rest.length := by
    rw [text, List.length_append]
    omega
  rw [locate, seek_add inside]
  dsimp only
  rw [forward, text, List.take_append_of_le_length fits]

end Marker

end Rulebook

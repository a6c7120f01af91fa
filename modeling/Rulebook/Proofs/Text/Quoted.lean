import Mathlib.Algebra.Group.Nat.Defs
import Rulebook.Proofs.Text.Scalar
import Rulebook.Text.Quoted

/-!
# Quoting and reading back

What is quoted is read back as it was (`Bytes.unquote?_quote`), whether its bytes are UTF-8 or not,
and what follows a quoted text does not change where it ends (`Bytes.quote_unique`). Each character
of a text is written as a piece that spells its bytes, and no piece starts with the quote that would
close the text.
-/

namespace Rulebook

namespace Scalar

/-- Writing a character in UTF-8 gives the form of its code point. -/
theorem form_ofChar (c : Char) : Form (Bytes.ofChar c) c.toNat := by
  have valid : c.toNat < 0xD800 ∨ 0xDFFF < c.toNat ∧ c.toNat < 0x110000 := c.valid
  rw [Bytes.ofChar, String.utf8EncodeChar, show c.val.toNat = c.toNat from rfl]
  generalize c.toNat = n at valid
  have byte {k : Nat} (h : k < 256) : (UInt8.ofNat k).toNat = k := by
    rw [UInt8.toNat_ofNat', Nat.mod_eq_of_lt h]
  split
  · have form := Form.one (a := UInt8.ofNat n) (by rw [byte (by omega)]; omega)
    rwa [byte (by omega)] at form
  split
  · have a := byte (k := n / 64 % 32 + 192) (by omega)
    have b := byte (k := n % 64 + 128) (by omega)
    have form := Form.two (a := .ofNat _) (b := .ofNat _) (by rw [a]; omega) (by rw [a]; omega)
      (by rw [IsTail, b]; omega)
    simp only [a, b, Nat.add_sub_cancel] at form
    rwa [show n / 64 % 32 * 64 + n % 64 = n by omega] at form
  split
  · have a := byte (k := n / 4096 % 16 + 224) (by omega)
    have b := byte (k := n / 64 % 64 + 128) (by omega)
    have c := byte (k := n % 64 + 128) (by omega)
    have form := Form.three (a := .ofNat _) (b := .ofNat _) (c := .ofNat _)
      (by rw [a]; omega) (by rw [a]; omega) (by rw [IsTail, b]; omega) (by rw [IsTail, c]; omega)
      (by simp only [a, b, c, Nat.add_sub_cancel]; omega)
    simp only [a, b, c, Nat.add_sub_cancel] at form
    rwa [show n / 4096 % 16 * 4096 + n / 64 % 64 * 64 + n % 64 = n by omega] at form
  · have a := byte (k := n / 262144 % 8 + 240) (by omega)
    have b := byte (k := n / 4096 % 64 + 128) (by omega)
    have c := byte (k := n / 64 % 64 + 128) (by omega)
    have d := byte (k := n % 64 + 128) (by omega)
    have form := Form.four (a := .ofNat _) (b := .ofNat _) (c := .ofNat _) (d := .ofNat _)
      (by rw [a]; omega) (by rw [a]; omega) (by rw [IsTail, b]; omega) (by rw [IsTail, c]; omega)
      (by rw [IsTail, d]; omega) (by simp only [a, b, c, d, Nat.add_sub_cancel]; omega)
    simp only [a, b, c, d, Nat.add_sub_cancel] at form
    rwa [show n / 262144 % 8 * 262144 + n / 4096 % 64 * 4096 + n / 64 % 64 * 64 + n % 64 = n by
      omega] at form

/-- A character that is not stray stands for the bytes it was read from. -/
theorem ofChar_char {a : UInt8} {rest : Bytes} (valid : (ofHead a rest).isStray = false) :
    Bytes.ofChar (ofHead a rest).char = (ofHead a rest).bytes :=
  (form_ofChar _).unique (form_ofHead valid)

/-- A stray character is one byte. -/
theorem bytes_of_isStray {a : UInt8} {rest : Bytes} (stray : (ofHead a rest).isStray = true) :
    (ofHead a rest).bytes = [a] := by
  obtain ⟨bytes, -, -⟩ := bytes_ofHead a rest
  simp only [isStray, Bool.and_eq_true, beq_iff_eq] at stray
  rw [bytes, width, stray.2]
  simp

/-- A character of ASCII is its byte. -/
theorem bytes_of_code_low {a : UInt8} {rest : Bytes} (low : (ofHead a rest).code < 0x80) :
    (ofHead a rest).bytes = [a] ∧ (ofHead a rest).code = a.toNat := by
  by_cases ascii : a < 0x80
  · rw [ofHead_ascii ascii]
    exact ⟨rfl, code_ascii ascii⟩
  · have := code_ofHead ascii rest
    omega

end Scalar

namespace Bytes

/-! ### Digits -/

theorem unhex?_digit {n : Nat} (h : n < 16) : unhex? (digit n) = some n := by
  have : ∀ n < 16, unhex? (digit n) = some n := by decide
  exact this n h

theorem length_hex (width n : Nat) : (hex width n).length = width := by
  induction width generalizing n with
  | zero => rfl
  | succ width ih => simp [hex, ih]

theorem mem_hex {width n : Nat} {b : UInt8} (mem : b ∈ hex width n) : ∃ d < 16, digit d = b := by
  induction width generalizing n with
  | zero => cases mem
  | succ width ih =>
    rw [hex, List.mem_append, List.mem_singleton] at mem
    obtain front | rfl := mem
    · exact ih front
    · exact ⟨n % 16, Nat.mod_lt _ (by decide), rfl⟩

theorem notMem_hex (width n : Nat) : 10 ∉ hex width n := by
  intro mem
  obtain ⟨d, small, is_newline⟩ := mem_hex mem
  have : ∀ d < 16, digit d ≠ 10 := by decide
  exact this d small is_newline

theorem hex_ascii (width n : Nat) : ∀ b ∈ hex width n, b < 0x80 := by
  intro b mem
  obtain ⟨d, small, rfl⟩ := mem_hex mem
  have : ∀ d < 16, digit d < 0x80 := by decide
  exact this d small

/-- The digits of a number, read in order, give the number. -/
theorem foldlM_hex {width n : Nat} (fits : n < 16 ^ width) :
    (hex width n).foldlM (m := Option) (fun v b => do
      let d ← unhex? b
      pure (v * 16 + d)) 0 = some n := by
  induction width generalizing n with
  | zero =>
    obtain rfl : n = 0 := by simpa using fits
    rfl
  | succ width ih =>
    have front : n / 16 < 16 ^ width := by
      rw [Nat.div_lt_iff_lt_mul (by decide)]
      rwa [Nat.pow_succ] at fits
    rw [hex, List.foldlM_append, ih front]
    simp only [List.foldlM_cons, List.foldlM_nil, unhex?_digit (Nat.mod_lt n (by decide)),
      Option.bind_eq_bind, Option.bind_some, Option.pure_def, Option.some.injEq]
    omega

theorem readHex?_hex {width n : Nat} (fits : n < 16 ^ width) (t : Bytes) :
    readHex? width (hex width n ++ t) = some n := by
  have long : ¬ (hex width n ++ t).length < width := by
    rw [List.length_append, length_hex]
    omega
  rw [readHex?, if_neg long, List.take_append_of_le_length (Nat.le_of_eq (length_hex ..).symm),
    List.take_of_length_le (Nat.le_of_eq (length_hex ..)), foldlM_hex fits]

/-- The number of a character, read as a character. -/
theorem readChar?_hex {width : Nat} {c : Char} (fits : c.toNat < 16 ^ width) (t : Bytes) :
    readChar? width (hex width c.toNat ++ t) = some (ofChar c) := by
  have valid : c.toNat < 0xD800 ∨ 0xDFFF < c.toNat ∧ c.toNat < 0x110000 := c.valid
  have range : (c.toNat < 0xD800 || (0xDFFF < c.toNat && c.toNat ≤ 0x10FFFF)) = true := by
    simp only [Bool.or_eq_true, Bool.and_eq_true, decide_eq_true_eq]
    omega
  simp only [readChar?, readHex?_hex fits, Option.bind_eq_bind, Option.bind_some, range, if_true,
    Option.pure_def, Char.ofNat_toNat]

/-! ### Pieces -/

/-- True of a piece of a quoted text that stands for some bytes, whatever follows it. It stays on
    its line. -/
def Spells (piece bytes : Bytes) : Prop :=
  ∃ b more, piece = b :: more ∧ b ≠ 34 ∧ 10 ∉ piece ∧
    ∀ t, unquoteHead? 34 b (more ++ t) = some (bytes, more.length)

theorem spells_byte {b : UInt8} (low : b < 0x80) (quote : b ≠ 34) (slash : b ≠ 92)
    (line : b ≠ 10) : Spells [b] [b] :=
  ⟨b, [], rfl, quote, by simpa using line.symm, fun t => by simp [unquoteHead?, low, slash, line]⟩

theorem spells_escape {more bytes : Bytes} (whole : 10 ∉ more)
    (h : ∀ t, unescape? 34 (more ++ t) = some (bytes, more.length)) : Spells (92 :: more) bytes :=
  ⟨92, more, rfl, by decide, by simpa using whole, fun t => by rw [← h t]; rfl⟩

theorem spells_hex {n : Nat} (fits : n < 256) : Spells ("\\x" ++ hex 2 n) [n.toUInt8] := by
  have shape : ("\\x" : Bytes) ++ hex 2 n = 92 :: 120 :: hex 2 n := rfl
  rw [shape]
  refine spells_escape (by simpa using notMem_hex 2 n) fun t => ?_
  rw [List.cons_append, unescape?, List.length_cons, length_hex]
  simp [readHex?_hex (show n < 16 ^ 2 from fits)]

theorem spells_letter {c : Char} {letter : UInt8} (h : escapeLetter? c = some letter) :
    Spells [92, letter] [c.toNat.toUInt8] := by
  unfold escapeLetter? at h
  generalize c.toNat = n at h
  split at h <;> cases h <;> exact spells_escape (by decide) fun t => rfl

theorem spells_char {a : UInt8} {rest : Bytes} (valid : (Scalar.ofHead a rest).isStray = false)
    (high : 0x80 ≤ (Scalar.ofHead a rest).code) :
    Spells (Scalar.ofHead a rest).bytes (Scalar.ofHead a rest).bytes := by
  obtain ⟨bytes, -, fits⟩ := Scalar.bytes_ofHead a rest
  have low : ¬ a < 0x80 := fun low => by
    rw [Scalar.ofHead_ascii low, Scalar.code_ascii low] at high
    exact absurd low (Nat.not_lt.2 high)
  have ne {b : UInt8} (ascii : b < 0x80) : a ≠ b := fun same => low (same ▸ ascii)
  generalize more : rest.take ((Scalar.ofHead a rest).width - 1) = taken at bytes
  have length : taken.length = (Scalar.ofHead a rest).width - 1 := by
    rw [← more, List.length_take]
    omega
  -- the character is read from its own bytes, whatever follows them
  have short : Scalar.ofHead a taken = Scalar.ofHead a rest := by
    have cut : rest = taken ++ rest.drop ((Scalar.ofHead a rest).width - 1) := by
      rw [← more, List.take_append_drop]
    have := @Scalar.ofHead_of_append a taken (rest.drop ((Scalar.ofHead a rest).width - 1))
      (by rw [← cut]; omega)
    rwa [← cut] at this
  have whole : 10 ∉ (Scalar.ofHead a rest).bytes := fun mem =>
    absurd (Scalar.high_ofHead low rest 10 mem) (by decide)
  refine ⟨a, taken, bytes, ne (by decide), whole, fun t => ?_⟩
  have read : Scalar.ofHead a (taken ++ t) = Scalar.ofHead a rest := by
    rw [ofHead_append_of_not_stray (by rw [short]; exact valid), short]
  rw [unquoteHead?, if_neg (by simpa using ne (b := 10) (by decide)),
    if_neg (by simpa using ne (b := 92) (by decide)), if_neg low]
  simp only [read, Scalar.ofChar_char valid, length]

theorem spells_escapeChar {a : UInt8} {rest : Bytes}
    (valid : (Scalar.ofHead a rest).isStray = false) :
    Spells (escapeChar (Scalar.ofHead a rest).char) (Scalar.ofHead a rest).bytes := by
  have same := Scalar.ofChar_char valid
  have code : (Scalar.ofHead a rest).char.toNat = (Scalar.ofHead a rest).code := rfl
  have one (low : (Scalar.ofHead a rest).code < 0x80) :
      (Scalar.ofHead a rest).bytes = [(Scalar.ofHead a rest).code.toUInt8] := by
    obtain ⟨bytes, code⟩ := Scalar.bytes_of_code_low low
    rw [bytes, code]
    simp
  unfold escapeChar
  split
  · rename_i letter found
    have low : (Scalar.ofHead a rest).code < 0x80 := by
      rw [← code]
      unfold escapeLetter? at found
      split at found <;> first | omega | cases found
    rw [one low]
    exact spells_letter found
  · dsimp only
    split
    · rename_i control
      have control : (Scalar.ofHead a rest).code < 0x20 ∨ (Scalar.ofHead a rest).code = 0x7F := by
        simpa [code] using control
      rw [code, one (by omega)]
      exact spells_hex (by omega)
    split
    · rename_i fits
      have shape (n : Nat) : ("\\u" : Bytes) ++ hex 4 n = 92 :: 117 :: hex 4 n := rfl
      rw [shape, ← same]
      refine spells_escape (by simpa using notMem_hex 4 _) fun t => ?_
      rw [List.cons_append, unescape?, List.length_cons, length_hex]
      simp [readChar?_hex (show (Scalar.ofHead a rest).char.toNat < 16 ^ 4 from fits)]
    · have shape (n : Nat) : ("\\U" : Bytes) ++ hex 8 n = 92 :: 85 :: hex 8 n := rfl
      have fits : (Scalar.ofHead a rest).char.toNat < 16 ^ 8 := by
        have := (Scalar.ofHead a rest).char.val.toNat_lt
        exact Nat.lt_of_lt_of_le this (by decide)
      rw [shape, ← same]
      refine spells_escape (by simpa using notMem_hex 8 _) fun t => ?_
      rw [List.cons_append, unescape?, List.length_cons, length_hex]
      simp [readChar?_hex fits]

/-- Each character is written as a piece that stands for its bytes. -/
theorem spells_quoteScalar (a : UInt8) (rest : Bytes) :
    Spells (quoteScalar (Scalar.ofHead a rest)) (Scalar.ofHead a rest).bytes := by
  unfold quoteScalar
  split
  · rename_i stray
    rw [Scalar.bytes_of_isStray stray]
    simpa using spells_hex a.toNat_lt
  rename_i valid
  rw [Bool.not_eq_true] at valid
  split
  · rename_i special
    simp only [Bool.or_eq_true, beq_iff_eq] at special
    have code : (Scalar.ofHead a rest).code = 34 ∨ (Scalar.ofHead a rest).code = 92 := by
      obtain h | h := special
      · exact .inl (by rw [Scalar.code, h]; rfl)
      · exact .inr (by rw [Scalar.code, h]; rfl)
    obtain ⟨bytes, byte⟩ := @Scalar.bytes_of_code_low a rest (by omega)
    rw [bytes]
    rw [byte] at code
    obtain h | h := code
    · obtain rfl : a = 34 := UInt8.toNat_inj.1 h
      exact spells_escape (by decide) fun t => rfl
    · obtain rfl : a = 92 := UInt8.toNat_inj.1 h
      exact spells_escape (by decide) fun t => rfl
  rename_i special
  split
  · rename_i printable
    by_cases low : (Scalar.ofHead a rest).code < 0x80
    · obtain ⟨bytes, byte⟩ := Scalar.bytes_of_code_low low
      have code : (Scalar.ofHead a rest).char.toNat = a.toNat := byte
      rw [byte] at low
      rw [isPrintable, code, if_pos low] at printable
      simp only [Bool.and_eq_true, decide_eq_true_eq] at printable
      simp only [Bool.or_eq_true, beq_iff_eq, not_or] at special
      rw [bytes]
      refine spells_byte low ?_ ?_ ?_
      · rintro rfl
        exact special.1 (Char.toNat_inj.1 code)
      · rintro rfl
        exact special.2 (Char.toNat_inj.1 code)
      · rintro rfl
        exact absurd printable.1 (by decide)
    · exact spells_char valid (Nat.le_of_not_lt low)
  · exact spells_escapeChar valid

/-! ### Reading back -/

theorem unquoteFrom_skip (piece t : Bytes) :
    unquoteFrom piece.length (piece ++ t) = unquoteFrom 0 t := by
  induction piece with
  | nil => rfl
  | cons b piece ih => exact ih

theorem Spells.unquoteFrom {piece bytes : Bytes} (h : Spells piece bytes) (t : Bytes) :
    unquoteFrom 0 (piece ++ t) = (unquoteFrom 0 t).map (bytes ++ ·) := by
  obtain ⟨b, more, rfl, other, -, head⟩ := h
  rw [List.cons_append, Bytes.unquoteFrom, if_neg (by simpa using other), head]
  dsimp only
  rw [unquoteFrom_skip]

/-- A character that stands for itself is UTF-8, and an escape is ASCII. -/
theorem isUtf8_quoteScalar {s : Bytes} {c : Scalar} (mem : c ∈ s.scalars) :
    (quoteScalar c).isUtf8 = true := by
  have coded (letter : UInt8) (low : letter < 0x80) (width n : Nat) :
      isUtf8 (92 :: letter :: hex width n) = true :=
    isUtf8_cons (by decide) (isUtf8_cons low (isUtf8_of_ascii (hex_ascii width n)))
  unfold quoteScalar
  split
  · refine isUtf8_cons (by decide) (isUtf8_cons (by decide) (isUtf8_of_ascii fun b digit => ?_))
    obtain ⟨a, -, digit⟩ := List.mem_flatMap.1 digit
    exact hex_ascii 2 _ b digit
  rename_i valid
  have itself : c.bytes.isUtf8 = true := isUtf8_of_mem_scalars mem (by simpa using valid)
  split
  · exact isUtf8_cons (by decide) itself
  split
  · exact itself
  · unfold escapeChar escapeLetter?
    generalize c.char.toNat = n
    split
    · rename_i letter found
      refine isUtf8_of_ascii fun b mem => ?_
      split at found <;> cases found <;> revert b <;> decide
    · dsimp only
      split
      · exact coded 120 (by decide) 2 n
      split
      · exact coded 117 (by decide) 4 n
      · exact coded 85 (by decide) 8 n

/-- Whatever the bytes of a text are, the text in quotes is UTF-8. -/
theorem isUtf8_quote (s : Bytes) : s.quote.isUtf8 = true := by
  have pieces := isUtf8_flatMap fun c mem => isUtf8_quoteScalar (s := s) (c := c) mem
  exact isUtf8_append (isUtf8_append rfl pieces) rfl

/-- What a quoted text is made of: for each character of the text a piece that stands for it. -/
theorem exists_pieces (s : Bytes) :
    ∃ parts : List (Bytes × Bytes), (∀ part ∈ parts, Spells part.1 part.2) ∧
      quote s = 34 :: (parts.map Prod.fst).flatten ++ [34] ∧ s = (parts.map Prod.snd).flatten := by
  suffices h : ∃ parts : List (Bytes × Bytes), (∀ part ∈ parts, Spells part.1 part.2) ∧
      s.scalars.flatMap quoteScalar = (parts.map Prod.fst).flatten ∧
      s = (parts.map Prod.snd).flatten by
    obtain ⟨parts, spells, pieces, bytes⟩ := h
    exact ⟨parts, spells, by rw [quote, pieces]; rfl, bytes⟩
  induction n : s.length using Nat.strongRecOn generalizing s with
  | _ n ih =>
  cases s with
  | nil => exact ⟨[], by simp, rfl, rfl⟩
  | cons a rest =>
    obtain ⟨bytes, -, fits⟩ := Scalar.bytes_ofHead a rest
    obtain ⟨parts, spells, pieces, others⟩ :=
      ih _ (by simp at n ⊢; omega) (rest.drop ((Scalar.ofHead a rest).width - 1)) rfl
    refine ⟨(quoteScalar (Scalar.ofHead a rest), (Scalar.ofHead a rest).bytes) :: parts,
      List.forall_mem_cons.2 ⟨spells_quoteScalar a rest, spells⟩, ?_, ?_⟩
    · rw [scalars_cons, List.flatMap_cons, pieces]
      rfl
    · rw [List.map_cons, List.flatten_cons, ← others, bytes, List.cons_append,
        List.take_append_drop]

/-- A quoted text is read back as it was. -/
theorem unquote?_quote (s : Bytes) : unquote? (quote s) = some s := by
  obtain ⟨parts, spells, quoted, rfl⟩ := exists_pieces s
  rw [quoted]
  change unquoteFrom 0 ((parts.map Prod.fst).flatten ++ [34]) = _
  clear quoted
  induction parts with
  | nil => rfl
  | cons part parts ih =>
    rw [List.map_cons, List.flatten_cons, List.append_assoc,
      (spells part (List.mem_cons_self ..)).unquoteFrom,
      ih fun part mem => spells part (List.mem_cons_of_mem _ mem)]
    rfl

/-! ### Telling apart -/

/-- Of two pieces at the start of one text, both are the same piece. -/
theorem Spells.unique {p q bytes bytes' u v : Bytes} (hp : Spells p bytes) (hq : Spells q bytes')
    (same : p ++ u = q ++ v) : bytes = bytes' ∧ u = v := by
  rcases hp with ⟨a, more, rfl, -, -, read⟩
  rcases hq with ⟨b, more', rfl, -, -, read'⟩
  rw [List.cons_append, List.cons_append, List.cons.injEq] at same
  rcases same with ⟨rfl, rest⟩
  have reads := read u
  rw [rest, read' v, Option.some.injEq, Prod.mk.injEq] at reads
  exact ⟨reads.1.symm, (List.append_inj rest reads.2.symm).2⟩

/-- Two runs of pieces up to the closing quote of one text stand for the same bytes. -/
theorem pieces_unique {ps qs : List (Bytes × Bytes)} {u v : Bytes}
    (hp : ∀ part ∈ ps, Spells part.1 part.2) (hq : ∀ part ∈ qs, Spells part.1 part.2)
    (same : (ps.map Prod.fst).flatten ++ 34 :: u = (qs.map Prod.fst).flatten ++ 34 :: v) :
    (ps.map Prod.snd).flatten = (qs.map Prod.snd).flatten ∧ u = v := by
  -- a piece does not start with the closing quote, so both runs end at the same place
  have open_of {part : Bytes × Bytes} (h : Spells part.1 part.2) (w t : Bytes) :
      ¬ 34 :: w = part.1 ++ t := by
    rcases h with ⟨b, more, eq, other, -, -⟩
    rw [eq]
    intro quote
    exact other (List.cons.inj quote).1.symm
  induction ps generalizing qs with
  | nil =>
    cases qs with
    | nil => exact ⟨rfl, (List.cons.inj same).2⟩
    | cons q qs =>
      rw [List.map_cons, List.flatten_cons, List.append_assoc] at same
      exact absurd same (open_of (hq q (List.mem_cons_self ..)) _ _)
  | cons p ps ih =>
    rw [List.map_cons, List.flatten_cons, List.append_assoc] at same
    cases qs with
    | nil => exact absurd same.symm (open_of (hp p (List.mem_cons_self ..)) _ _)
    | cons q qs =>
      rw [List.map_cons, List.flatten_cons, List.append_assoc] at same
      have piece := (hp p (List.mem_cons_self ..)).unique (hq q (List.mem_cons_self ..)) same
      have others := ih (fun part mem => hp part (List.mem_cons_of_mem _ mem))
        (fun part mem => hq part (List.mem_cons_of_mem _ mem)) piece.2
      refine ⟨?_, others.2⟩
      rw [List.map_cons, List.flatten_cons, List.map_cons, List.flatten_cons, piece.1, others.1]

/-- Of two quoted texts at the start of one text, both are the same. -/
theorem quote_unique {s t u v : Bytes} (same : quote s ++ u = quote t ++ v) : s = t ∧ u = v := by
  rcases exists_pieces s with ⟨ps, hp, quoted, rfl⟩
  rcases exists_pieces t with ⟨qs, hq, quoted', rfl⟩
  rw [quoted, quoted', List.cons_append, List.cons_append, List.cons_append, List.cons_append,
    List.append_assoc, List.append_assoc] at same
  exact pieces_unique hp hq (List.cons.inj same).2

end Bytes

end Rulebook

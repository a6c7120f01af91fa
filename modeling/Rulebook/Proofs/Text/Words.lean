import Rulebook.Text.Bytes

/-!
# Words and numbers in a text

A text starts with one word only, if the byte after it belongs to no word (`Bytes.word_unique`), and
with one number (`Bytes.integer_unique`).
-/

namespace Rulebook

namespace Bytes

/-- Two words, each up to a byte that no word holds. -/
theorem word_unique {v w r s : Bytes} {a b : UInt8} (hv : ∀ c ∈ v, isWord c = true)
    (hw : ∀ c ∈ w, isWord c = true) (ha : isWord a = false) (hb : isWord b = false)
    (same : v ++ a :: r = w ++ b :: s) : v = w ∧ a = b ∧ r = s := by
  induction v generalizing w with
  | nil =>
    cases w with
    | nil => exact ⟨rfl, List.cons.inj same⟩
    | cons c w =>
      rcases List.cons.inj same with ⟨rfl, -⟩
      rw [hw a (List.mem_cons_self ..)] at ha
      cases ha
  | cons c v ih =>
    cases w with
    | nil =>
      rcases List.cons.inj same with ⟨rfl, -⟩
      rw [hv c (List.mem_cons_self ..)] at hb
      cases hb
    | cons d w =>
      rcases List.cons.inj same with ⟨rfl, rest⟩
      rcases ih (fun c mem => hv c (List.mem_cons_of_mem _ mem))
        (fun c mem => hw c (List.mem_cons_of_mem _ mem)) rest with ⟨rfl, others⟩
      exact ⟨rfl, others⟩

/-! ### Numbers -/

/-- A digit is written as one byte, from which it can be read. -/
theorem ofChar_digit {c : Char} (digit : c.isDigit = true) :
    ∃ b : UInt8, ofChar c = [b] ∧ 48 ≤ b ∧ b ≤ 57 ∧ Char.ofNat b.toNat = c := by
  rw [Char.isDigit, Bool.and_eq_true, decide_eq_true_eq, decide_eq_true_eq] at digit
  have low : 48 ≤ c.toNat := digit.1
  have high : c.toNat ≤ 57 := digit.2
  have byte : (UInt8.ofNat c.toNat).toNat = c.toNat := by
    rw [UInt8.toNat_ofNat', Nat.mod_eq_of_lt (by omega)]
  refine ⟨.ofNat c.toNat, ?_, ?_, ?_, ?_⟩
  · rw [ofChar, String.utf8EncodeChar, if_pos (show c.val.toNat ≤ 127 by exact Nat.le_trans high (by decide))]
    rfl
  · rw [UInt8.le_iff_toNat_le, byte]
    exact low
  · rw [UInt8.le_iff_toNat_le, byte]
    exact high
  · rw [byte, Char.ofNat_toNat]

/-- A number in decimal is made of digits, one byte each. -/
theorem digits_decimal (n : Nat) :
    (∀ b ∈ decimal n, 48 ≤ b ∧ b ≤ 57) ∧
      (decimal n).map (fun b => Char.ofNat b.toNat) = Nat.toDigits 10 n := by
  have digits : ∀ c ∈ Nat.toDigits 10 n, c.isDigit = true := fun c mem =>
    Nat.isDigit_of_mem_toDigits (by decide) (by decide) mem
  rw [decimal]
  generalize Nat.toDigits 10 n = cs at digits
  induction cs with
  | nil => exact ⟨nofun, rfl⟩
  | cons c cs ih =>
    rcases List.forall_mem_cons.1 digits with ⟨digit, digits⟩
    rcases ofChar_digit digit with ⟨b, byte, low, high, back⟩
    rcases ih digits with ⟨others, rest⟩
    rw [List.flatMap_cons, byte, List.singleton_append]
    exact ⟨List.forall_mem_cons.2 ⟨⟨low, high⟩, others⟩, by rw [List.map_cons, back, rest]⟩

theorem isWord_of_mem_decimal {n : Nat} {b : UInt8} (mem : b ∈ decimal n) : isWord b = true := by
  have digit := (digits_decimal n).1 b mem
  simp [isWord, digit]

theorem decimal_inj {m n : Nat} (same : decimal m = decimal n) : m = n := by
  have digits : Nat.toDigits 10 m = Nat.toDigits 10 n := by
    rw [← (digits_decimal m).2, same, (digits_decimal n).2]
  have numbers := congrArg (fun cs => Nat.ofDigitChars 10 cs 0) digits
  simpa using numbers

/-- Two numbers at the start of one text, each up to a blank, are one number. -/
theorem integer_unique {i j : Int} {u v : Bytes}
    (same : integer i ++ 32 :: u = integer j ++ 32 :: v) : i = j ∧ u = v := by
  have natural {m n : Nat} {u v : Bytes} (same : decimal m ++ 32 :: u = decimal n ++ 32 :: v) :
      m = n ∧ u = v := by
    rcases word_unique (fun b mem => isWord_of_mem_decimal mem)
      (fun b mem => isWord_of_mem_decimal mem) (by decide) (by decide) same with ⟨numbers, -, rest⟩
    exact ⟨decimal_inj numbers, rest⟩
  -- a minus sign is no digit
  have signed {m : Nat} {u v : Bytes} : ¬ decimal m ++ 32 :: u = 45 :: v := by
    intro same
    have blank := (word_unique (w := []) (fun b mem => isWord_of_mem_decimal mem) nofun (by decide)
      (by decide) same).2.1
    exact absurd blank (by decide)
  cases i with
  | ofNat m =>
    cases j with
    | ofNat n =>
      rcases natural same with ⟨rfl, rest⟩
      exact ⟨rfl, rest⟩
    | negSucc n => exact absurd same signed
  | negSucc m =>
    cases j with
    | ofNat n => exact absurd same.symm signed
    | negSucc n =>
      rcases natural (List.cons.inj same).2 with ⟨numbers, rest⟩
      rw [Nat.succ.inj numbers]
      exact ⟨rfl, rest⟩

end Bytes

end Rulebook

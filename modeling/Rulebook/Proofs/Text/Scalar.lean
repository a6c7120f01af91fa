import Mathlib.Tactic.SplitIfs
import Rulebook.Text.Scalar

/-!
# Cutting a byte string between characters

A byte string and its characters determine each other, and a byte string may be cut before any byte
of ASCII, or between any two of its characters, without a change to the characters on either side.
-/

namespace Rulebook

/-! ### Properties of bytes

A property of the bytes that a text holds is decided by reading the text, and not by trying every
byte there is. -/

instance (priority := high) decidableForallByte {p : UInt8 → Prop} [DecidablePred p] (s : Bytes) :
    Decidable (∀ b ∈ s, p b) :=
  List.decidableBAll p s

instance (priority := high) decidableForallByte? {p : UInt8 → Prop} [DecidablePred p]
    (b? : Option UInt8) : Decidable (∀ b ∈ b?, p b) :=
  b?.decidableForallMem

namespace Scalar

/-- What makes up a character of several bytes: its lead byte, and the `count` bytes after it. No
    other byte has a say in it. -/
structure Led (a : UInt8) (rest : Bytes) (s : Scalar) (count : Nat) : Prop where
  some_byte : 0 < count
  enough : count ≤ rest.length
  bytes : s.bytes = a :: rest.take count
  high : ∀ b ∈ rest.take count, 0x80 ≤ b.toNat
  decided : ∀ t, several? a (rest.take count ++ t) = some s

theorem tail?_some {low high : Nat} {b : UInt8} {y : Nat} (h : tail? low high b = some y) :
    low ≤ b.toNat ∧ b.toNat ≤ high ∧ y = b.toNat - 0x80 := by
  unfold tail? at h
  split at h
  · rename_i range
    simp only [Bool.and_eq_true, decide_eq_true_eq] at range
    exact ⟨range.1, range.2, (Option.some.inj h).symm⟩
  · cases h

theorem two?_led {a : UInt8} {rest : Bytes} {s : Scalar}
    (same : ∀ t, several? a t = two? a t) (h : two? a rest = some s) : Led a rest s 1 := by
  match rest, h with
  | b :: rest, h =>
    have read := h
    simp only [two?, Option.bind_eq_bind, Option.bind_eq_some_iff, Option.pure_def,
      Option.some.injEq] at h
    obtain ⟨y, hy, rfl⟩ := h
    refine ⟨by simp, by simp, by simp, ?_, fun t => ?_⟩
    · simpa using (tail?_some hy).1
    · rw [same]
      exact read

theorem three?_led {a : UInt8} {low high : Nat} (le : 0x80 ≤ low) {rest : Bytes} {s : Scalar}
    (same : ∀ t, several? a t = three? a low high t) (h : three? a low high rest = some s) :
    Led a rest s 2 := by
  match rest, h with
  | b :: c :: rest, h =>
    have read := h
    simp only [three?, Option.bind_eq_bind, Option.bind_eq_some_iff, Option.pure_def,
      Option.some.injEq] at h
    obtain ⟨y, hy, z, hz, rfl⟩ := h
    refine ⟨by simp, by simp, by simp, ?_, fun t => ?_⟩
    · have := (tail?_some hy).1
      have := (tail?_some hz).1
      simp
      omega
    · rw [same]
      exact read

theorem four?_led {a : UInt8} {low high : Nat} (le : 0x80 ≤ low) {rest : Bytes} {s : Scalar}
    (same : ∀ t, several? a t = four? a low high t) (h : four? a low high rest = some s) :
    Led a rest s 3 := by
  match rest, h with
  | b :: c :: d :: rest, h =>
    have read := h
    simp only [four?, Option.bind_eq_bind, Option.bind_eq_some_iff, Option.pure_def,
      Option.some.injEq] at h
    obtain ⟨y, hy, z, hz, w, hw, rfl⟩ := h
    refine ⟨by simp, by simp, by simp, ?_, fun t => ?_⟩
    · have := (tail?_some hy).1
      have := (tail?_some hz).1
      have := (tail?_some hw).1
      simp
      omega
    · rw [same]
      exact read

/-- A lead byte of three bytes, and the range of the byte after it. It leaves out the code points
    that fewer bytes can write, and the surrogates. -/
structure LeadsThree (a : UInt8) (low high : Nat) : Prop where
  ge : 0xE0 ≤ a.toNat
  le : a.toNat ≤ 0xEF
  low_ge : 0x80 ≤ low
  high_le : high ≤ 0xBF
  no_shorter : a.toNat = 0xE0 → 0xA0 ≤ low
  no_surrogate : a.toNat = 0xED → high ≤ 0x9F

/-- A lead byte of four bytes, and the range of the byte after it. It leaves out the code points
    that fewer bytes can write, and what is beyond the last one. -/
structure LeadsFour (a : UInt8) (low high : Nat) : Prop where
  ge : 0xF0 ≤ a.toNat
  le : a.toNat ≤ 0xF4
  low_ge : 0x80 ≤ low
  high_le : high ≤ 0xBF
  no_shorter : a.toNat = 0xF0 → 0x90 ≤ low
  no_greater : a.toNat = 0xF4 → high ≤ 0x8F

/-- How the bytes after a lead byte are read. -/
inductive Reads (a : UInt8) : (Bytes → Option Scalar) → Prop where
  | two (ge : 0xC2 ≤ a.toNat) (le : a.toNat ≤ 0xDF) : Reads a (two? a)
  | three {low high : Nat} (lead : LeadsThree a low high) : Reads a (three? a low high)
  | four {low high : Nat} (lead : LeadsFour a low high) : Reads a (four? a low high)

/-- The lead byte alone says how a character of several bytes is read. -/
theorem reads_of_several? {a : UInt8} {rest : Bytes} {s : Scalar} (h : several? a rest = some s) :
    ∃ read, Reads a read ∧ ∀ t, several? a t = read t := by
  have e0 (is : a.toNat = 0xE0) : LeadsThree a 0xA0 0xBF :=
    ⟨by omega, by omega, by decide, by decide, fun _ => Nat.le_refl _, by omega⟩
  have ed (is : a.toNat = 0xED) : LeadsThree a 0x80 0x9F :=
    ⟨by omega, by omega, by decide, by decide, by omega, fun _ => Nat.le_refl _⟩
  have three (range : 0xE1 ≤ a.toNat ∧ a.toNat ≤ 0xEF) (other : a.toNat ≠ 0xED) :
      LeadsThree a 0x80 0xBF :=
    ⟨by omega, range.2, by decide, by decide, by omega, fun is => absurd is other⟩
  have f0 (is : a.toNat = 0xF0) : LeadsFour a 0x90 0xBF :=
    ⟨by omega, by omega, by decide, by decide, fun _ => Nat.le_refl _, by omega⟩
  have four (range : 0xF1 ≤ a.toNat ∧ a.toNat ≤ 0xF3) : LeadsFour a 0x80 0xBF :=
    ⟨by omega, by omega, by decide, by decide, by omega, by omega⟩
  have f4 (is : a.toNat = 0xF4) : LeadsFour a 0x80 0x8F :=
    ⟨by omega, by omega, by decide, by decide, by omega, fun _ => Nat.le_refl _⟩
  have read (t : Bytes) : several? a t =
      if 0xC2 ≤ a.toNat ∧ a.toNat ≤ 0xDF then two? a t
      else if a.toNat = 0xE0 then three? a 0xA0 0xBF t
      else if a.toNat = 0xED then three? a 0x80 0x9F t
      else if 0xE1 ≤ a.toNat ∧ a.toNat ≤ 0xEF then three? a 0x80 0xBF t
      else if a.toNat = 0xF0 then four? a 0x90 0xBF t
      else if 0xF1 ≤ a.toNat ∧ a.toNat ≤ 0xF3 then four? a 0x80 0xBF t
      else if a.toNat = 0xF4 then four? a 0x80 0x8F t
      else none := by
    simp only [several?, Bool.and_eq_true, decide_eq_true_eq, beq_iff_eq]
  rw [read] at h
  simp only [read]
  by_cases h₁ : 0xC2 ≤ a.toNat ∧ a.toNat ≤ 0xDF
  · simp only [if_pos h₁]
    exact ⟨_, .two h₁.1 h₁.2, fun _ => rfl⟩
  simp only [if_neg h₁] at h ⊢
  by_cases h₂ : a.toNat = 0xE0
  · simp only [if_pos h₂]
    exact ⟨_, .three (e0 h₂), fun _ => rfl⟩
  simp only [if_neg h₂] at h ⊢
  by_cases h₃ : a.toNat = 0xED
  · simp only [if_pos h₃]
    exact ⟨_, .three (ed h₃), fun _ => rfl⟩
  simp only [if_neg h₃] at h ⊢
  by_cases h₄ : 0xE1 ≤ a.toNat ∧ a.toNat ≤ 0xEF
  · simp only [if_pos h₄]
    exact ⟨_, .three (three h₄ h₃), fun _ => rfl⟩
  simp only [if_neg h₄] at h ⊢
  by_cases h₅ : a.toNat = 0xF0
  · simp only [if_pos h₅]
    exact ⟨_, .four (f0 h₅), fun _ => rfl⟩
  simp only [if_neg h₅] at h ⊢
  by_cases h₆ : 0xF1 ≤ a.toNat ∧ a.toNat ≤ 0xF3
  · simp only [if_pos h₆]
    exact ⟨_, .four (four h₆), fun _ => rfl⟩
  simp only [if_neg h₆] at h ⊢
  by_cases h₇ : a.toNat = 0xF4
  · simp only [if_pos h₇]
    exact ⟨_, .four (f4 h₇), fun _ => rfl⟩
  · rw [if_neg h₇] at h
    cases h

/-- A character of several bytes is decided by its own bytes. -/
theorem several?_led {a : UInt8} {rest : Bytes} {s : Scalar} (h : several? a rest = some s) :
    ∃ count, Led a rest s count := by
  obtain ⟨read, reads, same⟩ := reads_of_several? h
  rw [same] at h
  cases reads with
  | two => exact ⟨1, two?_led same h⟩
  | three lead => exact ⟨2, three?_led lead.low_ge same h⟩
  | four lead => exact ⟨3, four?_led lead.low_ge same h⟩

/-- More bytes at the end do not take a character away. -/
theorem several?_append {a : UInt8} {rest : Bytes} {s : Scalar} (h : several? a rest = some s)
    (t : Bytes) : several? a (rest ++ t) = some s := by
  obtain ⟨count, led⟩ := several?_led h
  have := led.decided (rest.drop count ++ t)
  rwa [← List.append_assoc, List.take_append_drop] at this

/-- A character that ends before some bytes is there without them. -/
theorem several?_of_append {a : UInt8} {rest t : Bytes} {s : Scalar}
    (h : several? a (rest ++ t) = some s) (fits : s.width ≤ rest.length + 1) :
    several? a rest = some s := by
  obtain ⟨count, led⟩ := several?_led h
  have le : count ≤ rest.length := by
    have enough := led.enough
    have := congrArg List.length led.bytes
    simp only [List.length_cons, List.length_take] at this
    simp only [width] at fits
    omega
  have := led.decided (rest.drop count)
  rwa [List.take_append_of_le_length le, List.take_append_drop] at this

/-- The bytes of the first character, and those after it, are all bytes. -/
theorem bytes_ofHead (a : UInt8) (rest : Bytes) :
    (ofHead a rest).bytes = a :: rest.take ((ofHead a rest).width - 1) ∧
      0 < (ofHead a rest).width ∧ (ofHead a rest).width ≤ rest.length + 1 := by
  unfold ofHead
  split
  · simp [width]
  · cases h : several? a rest with
    | none => simp [width, stray]
    | some s =>
      obtain ⟨count, led⟩ := several?_led h
      have enough := led.enough
      have : s.width = count + 1 := by
        simp only [width, led.bytes, List.length_cons, List.length_take]
        omega
      simp only [Option.getD_some, this, Nat.add_sub_cancel]
      exact ⟨led.bytes, by omega, by omega⟩

/-- A character is the same before a byte of ASCII as at the end. -/
theorem ofHead_append_ascii (b : UInt8) (rest : Bytes) {a : UInt8} (h : a < 0x80) (t : Bytes) :
    ofHead b (rest ++ a :: t) = ofHead b rest := by
  unfold ofHead
  split
  · rfl
  · congr 1
    cases short : several? b rest with
    | some s => exact several?_append short (a :: t)
    | none =>
      -- a character found with the byte of ASCII in it would hold a byte below 0x80
      cases long : several? b (rest ++ a :: t) with
      | none => rfl
      | some s =>
        obtain ⟨count, led⟩ := several?_led long
        by_cases le : count ≤ rest.length
        · have fits : s.width ≤ rest.length + 1 := by
            simp only [width, led.bytes, List.length_cons, List.length_take]
            omega
          rw [several?_of_append long fits] at short
          exact absurd short (by simp)
        · have mem : a ∈ (rest ++ a :: t).take count := by
            rw [List.take_append, List.take_of_length_le (by omega)]
            obtain ⟨n, hn⟩ : ∃ n, count - rest.length = n + 1 := ⟨count - rest.length - 1, by omega⟩
            simp [hn]
          have high := led.high a mem
          have low : a.toNat < 0x80 := h
          omega

/-- A character that ends before some bytes is read without them too. -/
theorem ofHead_of_append {b : UInt8} {rest t : Bytes}
    (fits : (ofHead b (rest ++ t)).width ≤ rest.length + 1) :
    ofHead b rest = ofHead b (rest ++ t) := by
  revert fits
  unfold ofHead
  split
  · intro _
    rfl
  · intro fits
    congr 1
    cases long : several? b (rest ++ t) with
    | some s =>
      rw [long] at fits
      exact several?_of_append long fits
    | none =>
      cases short : several? b rest with
      | none => rfl
      | some s =>
        rw [several?_append short t] at long
        exact absurd long (by simp)

/-- A number that is a character. -/
theorem toNat_ofNat {n : Nat} (h : n < 0xD800 ∨ 0xDFFF < n ∧ n < 0x110000) :
    (Char.ofNat n).toNat = n := by
  have valid : n.isValidChar := by
    unfold Nat.isValidChar
    omega
  rw [Char.ofNat, dif_pos valid]
  rfl

/-- A byte of ASCII by itself. -/
def ascii (a : UInt8) : Scalar := ⟨Char.ofNat a.toNat, [a]⟩

theorem code_ascii {a : UInt8} (h : a < 0x80) : (ascii a).code = a.toNat := by
  have low : a.toNat < 0x80 := h
  exact toNat_ofNat (by omega)

theorem isStray_ascii {a : UInt8} (h : a < 0x80) : (ascii a).isStray = false := by
  have low : a.toNat < 0x80 := h
  have code : (ascii a).char.toNat = a.toNat := code_ascii h
  cases stray : (ascii a).isStray with
  | false => rfl
  | true =>
    simp only [isStray, Bool.and_eq_true, beq_iff_eq] at stray
    rw [stray.1] at code
    have : replacement.toNat = 0xFFFD := by decide
    omega

theorem ofHead_ascii {a : UInt8} (h : a < 0x80) (rest : Bytes) : ofHead a rest = ascii a := by
  simp [ofHead, h, ascii]

/-- No byte of a character beyond ASCII is of ASCII. -/
theorem high_ofHead {a : UInt8} (h : ¬ a < 0x80) (rest : Bytes) :
    ∀ b ∈ (ofHead a rest).bytes, 0x80 ≤ b.toNat := by
  have first : 0x80 ≤ a.toNat := Nat.le_of_not_lt h
  unfold ofHead
  rw [if_neg h]
  cases read : several? a rest with
  | none => simpa [stray] using first
  | some s =>
    obtain ⟨count, led⟩ := several?_led read
    simpa [led.bytes] using ⟨first, led.high⟩

/-! ### The bytes of a code point -/

/-- True of the byte after a lead byte. -/
def IsTail (b : UInt8) : Prop := 0x80 ≤ b.toNat ∧ b.toNat ≤ 0xBF

/-- The bytes of a code point in UTF-8. -/
inductive Form : Bytes → Nat → Prop where
  | one {a : UInt8} : a.toNat < 0x80 → Form [a] a.toNat
  | two {a b : UInt8} : 0xC2 ≤ a.toNat → a.toNat ≤ 0xDF → IsTail b →
      Form [a, b] ((a.toNat - 0xC0) * 64 + (b.toNat - 0x80))
  | three {a b c : UInt8} : 0xE0 ≤ a.toNat → a.toNat ≤ 0xEF → IsTail b → IsTail c →
      0x800 ≤ (a.toNat - 0xE0) * 4096 + (b.toNat - 0x80) * 64 + (c.toNat - 0x80) →
      Form [a, b, c] ((a.toNat - 0xE0) * 4096 + (b.toNat - 0x80) * 64 + (c.toNat - 0x80))
  | four {a b c d : UInt8} : 0xF0 ≤ a.toNat → a.toNat ≤ 0xF4 → IsTail b → IsTail c → IsTail d →
      0x10000 ≤ (a.toNat - 0xF0) * 262144 + (b.toNat - 0x80) * 4096 + (c.toNat - 0x80) * 64 +
        (d.toNat - 0x80) →
      Form [a, b, c, d] ((a.toNat - 0xF0) * 262144 + (b.toNat - 0x80) * 4096 +
        (c.toNat - 0x80) * 64 + (d.toNat - 0x80))

/-- The code point says how many bytes there are. -/
theorem Form.length_eq {p : Bytes} {n : Nat} (h : Form p n) :
    p.length = if n < 0x80 then 1 else if n < 0x800 then 2 else if n < 0x10000 then 3 else 4 := by
  cases h with
  | one low => rw [if_pos low, List.length_singleton]
  | @two a b ge le tail =>
    have := tail.2
    rw [if_neg (by omega), if_pos (by omega)]
    rfl
  | @three a b c ge le second third long =>
    have := second.2
    have := third.2
    rw [if_neg (by omega), if_neg (by omega), if_pos (by omega)]
    rfl
  | four ge le second third fourth long =>
    rw [if_neg (by omega), if_neg (by omega), if_neg (by omega)]
    rfl

/-- A code point has one form. -/
theorem Form.unique {p q : Bytes} {n : Nat} (hp : Form p n) (hq : Form q n) : p = q := by
  have length : p.length = q.length := hp.length_eq.trans hq.length_eq.symm
  have byte {a b : UInt8} (h : a.toNat = b.toNat) : a = b := UInt8.toNat_inj.1 h
  generalize same : n = k at hq
  cases hp with
  | one =>
    cases hq with
    | one => rw [byte same]
    | _ => cases length
  | two _ _ hb =>
    cases hq with
    | two _ _ hb' =>
      have := hb.1
      have := hb.2
      have := hb'.1
      have := hb'.2
      rw [List.cons.injEq, List.cons.injEq]
      exact ⟨byte (by omega), byte (by omega), rfl⟩
    | _ => cases length
  | three _ _ hb hc =>
    cases hq with
    | three _ _ hb' hc' =>
      simp only [IsTail] at hb hc hb' hc'
      rw [List.cons.injEq, List.cons.injEq, List.cons.injEq]
      exact ⟨byte (by omega), byte (by omega), byte (by omega), rfl⟩
    | _ => cases length
  | four _ _ hb hc hd =>
    cases hq with
    | four _ _ hb' hc' hd' =>
      simp only [IsTail] at hb hc hd hb' hc' hd'
      rw [List.cons.injEq, List.cons.injEq, List.cons.injEq, List.cons.injEq]
      exact ⟨byte (by omega), byte (by omega), byte (by omega), byte (by omega), rfl⟩
    | _ => cases length

theorem form_two? {a : UInt8} {rest : Bytes} {s : Scalar} (h : two? a rest = some s)
    (low : 0xC2 ≤ a.toNat) (high : a.toNat ≤ 0xDF) : Form s.bytes s.code := by
  match rest, h with
  | b :: rest, h =>
    simp only [two?, Option.bind_eq_bind, Option.bind_eq_some_iff, Option.pure_def,
      Option.some.injEq] at h
    obtain ⟨y, hy, rfl⟩ := h
    obtain ⟨ge, le, same⟩ := tail?_some hy
    have value := toNat_ofNat (n := (a.toNat - 0xC0) * 64 + y) (by omega)
    rw [code]
    dsimp only
    rw [value, same]
    exact .two low high ⟨ge, le⟩

theorem form_three? {a : UInt8} {low high : Nat} {rest : Bytes} {s : Scalar}
    (h : three? a low high rest = some s) (lead : LeadsThree a low high) : Form s.bytes s.code := by
  obtain ⟨ge, le, low_ge, high_le, shorter, surrogate⟩ := lead
  match rest, h with
  | b :: c :: rest, h =>
    simp only [three?, Option.bind_eq_bind, Option.bind_eq_some_iff, Option.pure_def,
      Option.some.injEq] at h
    obtain ⟨y, hy, z, hz, rfl⟩ := h
    obtain ⟨_, _, hy⟩ := tail?_some hy
    obtain ⟨_, _, hz⟩ := tail?_some hz
    have value := toNat_ofNat (n := (a.toNat - 0xE0) * 4096 + y * 64 + z) (by omega)
    rw [code]
    dsimp only
    rw [value, hy, hz]
    exact .three ge le ⟨by omega, by omega⟩ ⟨by omega, by omega⟩ (by omega)

theorem form_four? {a : UInt8} {low high : Nat} {rest : Bytes} {s : Scalar}
    (h : four? a low high rest = some s) (lead : LeadsFour a low high) : Form s.bytes s.code := by
  obtain ⟨ge, le, low_ge, high_le, shorter, greater⟩ := lead
  match rest, h with
  | b :: c :: d :: rest, h =>
    simp only [four?, Option.bind_eq_bind, Option.bind_eq_some_iff, Option.pure_def,
      Option.some.injEq] at h
    obtain ⟨y, hy, z, hz, w, hw, rfl⟩ := h
    obtain ⟨_, _, hy⟩ := tail?_some hy
    obtain ⟨_, _, hz⟩ := tail?_some hz
    obtain ⟨_, _, hw⟩ := tail?_some hw
    have value := toNat_ofNat (n := (a.toNat - 0xF0) * 262144 + y * 4096 + z * 64 + w) (by omega)
    rw [code]
    dsimp only
    rw [value, hy, hz, hw]
    exact .four ge le ⟨by omega, by omega⟩ ⟨by omega, by omega⟩ ⟨by omega, by omega⟩ (by omega)

theorem form_several? {a : UInt8} {rest : Bytes} {s : Scalar} (h : several? a rest = some s) :
    Form s.bytes s.code := by
  obtain ⟨read, reads, same⟩ := reads_of_several? h
  rw [same] at h
  cases reads with
  | two ge le => exact form_two? h ge le
  | three lead => exact form_three? h lead
  | four lead => exact form_four? h lead

/-- A character of several bytes is not of ASCII. -/
theorem code_several? {a : UInt8} {rest : Bytes} {s : Scalar} (h : several? a rest = some s) :
    0x80 ≤ s.code := by
  obtain ⟨count, led⟩ := several?_led h
  have length := (form_several? h).length_eq
  have some_byte := led.some_byte
  have enough := led.enough
  rw [led.bytes, List.length_cons, List.length_take, Nat.min_eq_left enough] at length
  refine Nat.le_of_not_lt fun low => ?_
  rw [if_pos low] at length
  omega

/-- Only a byte of ASCII is a character of ASCII. -/
theorem code_ofHead {a : UInt8} (h : ¬ a < 0x80) (rest : Bytes) : 0x80 ≤ (ofHead a rest).code := by
  unfold ofHead
  rw [if_neg h]
  cases read : several? a rest with
  | none =>
    simp only [Option.getD_none, stray, code, replacement]
    decide
  | some s => exact code_several? read

/-- A character that is not stray is written in UTF-8. -/
theorem form_ofHead {a : UInt8} {rest : Bytes} (valid : (ofHead a rest).isStray = false) :
    Form (ofHead a rest).bytes (ofHead a rest).code := by
  by_cases low : a < 0x80
  · rw [ofHead_ascii low, code_ascii low]
    exact .one low
  · unfold ofHead at valid ⊢
    rw [if_neg low] at valid ⊢
    cases read : several? a rest with
    | none =>
      rw [read] at valid
      simp [stray, isStray] at valid
    | some s => exact form_several? read

end Scalar

namespace Bytes

theorem scalarsFrom_eq_drop (n : Nat) (s : Bytes) : scalarsFrom n s = scalars (s.drop n) := by
  induction n generalizing s with
  | zero => rfl
  | succ n ih =>
    cases s with
    | nil => simp [scalarsFrom, scalars]
    | cons b rest => simp [scalarsFrom, ih]

@[simp] theorem scalars_nil : scalars [] = [] := rfl

theorem scalars_cons (b : UInt8) (rest : Bytes) :
    scalars (b :: rest) =
      Scalar.ofHead b rest :: scalars (rest.drop ((Scalar.ofHead b rest).width - 1)) := by
  rw [scalars, scalarsFrom]
  simp only [scalarsFrom_eq_drop]

@[simp] theorem ofScalars_nil : ofScalars [] = [] := rfl

@[simp] theorem ofScalars_cons (s : Scalar) (l : List Scalar) :
    ofScalars (s :: l) = s.bytes ++ ofScalars l := rfl

@[simp] theorem ofScalars_append (l₁ l₂ : List Scalar) :
    ofScalars (l₁ ++ l₂) = ofScalars l₁ ++ ofScalars l₂ := by
  simp [ofScalars]

/-- The characters hold every byte, in order. -/
@[simp] theorem ofScalars_scalars (s : Bytes) : ofScalars s.scalars = s := by
  induction hn : s.length using Nat.strongRecOn generalizing s with
  | ind n ih =>
    cases s with
    | nil => rfl
    | cons b rest =>
      obtain ⟨bytes, pos, le⟩ := Scalar.bytes_ofHead b rest
      rw [scalars_cons, ofScalars_cons, bytes]
      have shorter : (rest.drop ((Scalar.ofHead b rest).width - 1)).length < n := by
        subst hn
        simp only [List.length_drop, List.length_cons]
        omega
      rw [ih _ shorter _ rfl]
      simp

/-- A byte string may be cut before a byte of ASCII. -/
theorem scalars_append_ascii (s : Bytes) {a : UInt8} (h : a < 0x80) (t : Bytes) :
    scalars (s ++ a :: t) = s.scalars ++ scalars (a :: t) := by
  induction hn : s.length using Nat.strongRecOn generalizing s with
  | ind n ih =>
    cases s with
    | nil => rfl
    | cons b rest =>
      obtain ⟨-, pos, le⟩ := Scalar.bytes_ofHead b rest
      rw [List.cons_append, scalars_cons, scalars_cons, Scalar.ofHead_append_ascii b rest h t,
        List.drop_append_of_le_length (by omega), List.cons_append]
      have shorter : (rest.drop ((Scalar.ofHead b rest).width - 1)).length < n := by
        subst hn
        simp only [List.length_drop, List.length_cons]
        omega
      rw [ih _ shorter _ rfl]

theorem scalars_cons_ascii {a : UInt8} (h : a < 0x80) (t : Bytes) :
    scalars (a :: t) = Scalar.ascii a :: t.scalars := by
  rw [scalars_cons, Scalar.ofHead_ascii h]
  rfl

theorem scalars_ascii_append {s : Bytes} (h : ∀ a ∈ s, a < 0x80) (t : Bytes) :
    scalars (s ++ t) = s.map Scalar.ascii ++ t.scalars := by
  induction s with
  | nil => rfl
  | cons a s ih =>
    rw [List.cons_append, scalars_cons_ascii (h a (by simp)), ih fun b hb => h b (by simp [hb])]
    rfl

/-- A byte string may be cut after a byte of ASCII. -/
theorem scalars_snoc_ascii (s : Bytes) {a : UInt8} (h : a < 0x80) (t : Bytes) :
    scalars (s ++ a :: t) = scalars (s ++ [a]) ++ t.scalars := by
  rw [scalars_append_ascii s h, scalars_append_ascii s h, scalars_cons_ascii h,
    scalars_cons_ascii h]
  simp

theorem ofHead_append_of_not_stray {b : UInt8} {rest : Bytes}
    (valid : (Scalar.ofHead b rest).isStray = false) (t : Bytes) :
    Scalar.ofHead b (rest ++ t) = Scalar.ofHead b rest := by
  unfold Scalar.ofHead at valid ⊢
  split
  · rfl
  · rename_i high
    rw [if_neg high] at valid
    cases several : Scalar.several? b rest with
    | some s => rw [Scalar.several?_append several]
    | none =>
      rw [several] at valid
      simp [Scalar.stray, Scalar.isStray] at valid

/-- A byte string that is UTF-8 may be followed by any other. -/
theorem scalars_append_of_isUtf8 {s : Bytes} (h : s.isUtf8 = true) (t : Bytes) :
    scalars (s ++ t) = s.scalars ++ t.scalars := by
  induction n : s.length using Nat.strongRecOn generalizing s with
  | ind n ih =>
  cases s with
  | nil => rfl
  | cons b rest =>
    rw [isUtf8, scalars_cons, List.all_cons, Bool.and_eq_true, Bool.not_eq_true'] at h
    obtain ⟨valid, others⟩ := h
    have fits := (Scalar.bytes_ofHead b rest).2.2
    rw [List.cons_append, scalars_cons, scalars_cons, ofHead_append_of_not_stray valid,
      List.drop_append_of_le_length (by omega), List.cons_append]
    rw [ih _ (by simp at n ⊢; omega) others rfl]

theorem isUtf8_append {s t : Bytes} (h : s.isUtf8 = true) (h' : t.isUtf8 = true) :
    isUtf8 (s ++ t) = true := by
  rw [isUtf8, scalars_append_of_isUtf8 h, List.all_append, Bool.and_eq_true]
  exact ⟨h, h'⟩

/-- A text of ASCII is UTF-8. -/
theorem isUtf8_of_ascii {s : Bytes} (h : ∀ b ∈ s, b < 0x80) : s.isUtf8 = true := by
  have scalars := scalars_ascii_append h []
  rw [List.append_nil, scalars_nil, List.append_nil] at scalars
  rw [isUtf8, scalars, List.all_map, List.all_eq_true]
  intro b mem
  simp [Scalar.isStray_ascii (h b mem)]

theorem isUtf8_cons {a : UInt8} (ascii : a < 0x80) {s : Bytes} (h : s.isUtf8 = true) :
    isUtf8 (a :: s) = true := by
  rw [isUtf8, scalars_cons_ascii ascii, List.all_cons, Scalar.isStray_ascii ascii]
  exact h

theorem isUtf8_flatMap {α : Type} {f : α → Bytes} {xs : List α}
    (h : ∀ x ∈ xs, (f x).isUtf8 = true) : isUtf8 (xs.flatMap f) = true := by
  induction xs with
  | nil => rfl
  | cons x xs ih =>
    rw [List.flatMap_cons]
    exact isUtf8_append (h x (List.mem_cons_self ..)) (ih fun y mem => h y (List.mem_cons_of_mem _ mem))

theorem isUtf8_join {separator : Bytes} (ascii : ∀ b ∈ separator, b < 0x80)
    {parts : List Bytes} (h : ∀ part ∈ parts, part.isUtf8 = true) :
    (join separator parts).isUtf8 = true := by
  unfold join
  induction parts with
  | nil => rfl
  | cons part parts ih =>
    have here := h part (List.mem_cons_self ..)
    have others := ih fun p mem => h p (List.mem_cons_of_mem _ mem)
    cases parts with
    | nil => simpa using here
    | cons next parts =>
      rw [List.intercalate_cons_cons, List.append_assoc]
      exact isUtf8_append here (isUtf8_append (isUtf8_of_ascii ascii) others)

/-- True of a list of characters that are read from their bytes as they stand. -/
def Legible (l : List Scalar) : Prop := (ofScalars l).scalars = l

theorem legible_scalars (s : Bytes) : Legible s.scalars := by
  simp [Legible]

/-- The bytes of a legible list determine its first character and the rest. -/
theorem legible_cons {x : Scalar} {l : List Scalar} (h : Legible (x :: l)) :
    ∃ b more, x.bytes = b :: more ∧ Scalar.ofHead b (more ++ ofScalars l) = x ∧ Legible l := by
  rw [Legible, ofScalars_cons] at h
  match hx : x.bytes, h with
  | [], h =>
    -- a character without bytes is never read
    exfalso
    rw [List.nil_append] at h
    have := congrArg ofScalars h
    cases hl : ofScalars l with
    | nil => simp [hl] at h
    | cons b rest =>
      rw [hl, scalars_cons] at h
      obtain ⟨bytes, -, -⟩ := Scalar.bytes_ofHead b rest
      rw [← (List.cons.inj h).1, bytes] at hx
      exact absurd hx (by simp)
  | b :: more, h =>
    rw [List.cons_append, scalars_cons] at h
    obtain ⟨head, tail⟩ := List.cons.inj h
    refine ⟨b, more, rfl, head, ?_⟩
    have width : x.width - 1 = more.length := by simp [Scalar.width, hx]
    rw [head, width, List.drop_left] at tail
    exact tail

/-- What follows some characters of a legible list is legible. -/
theorem legible_of_append_right {l₁ l₂ : List Scalar} (h : Legible (l₁ ++ l₂)) : Legible l₂ := by
  induction l₁ with
  | nil => exact h
  | cons x l₁ ih =>
    rw [List.cons_append] at h
    obtain ⟨-, -, -, -, rest⟩ := legible_cons h
    exact ih rest

/-- What comes before some characters of a legible list is legible. -/
theorem legible_of_append_left {l₁ l₂ : List Scalar} (h : Legible (l₁ ++ l₂)) : Legible l₁ := by
  induction l₁ with
  | nil => rfl
  | cons x l₁ ih =>
    rw [List.cons_append] at h
    obtain ⟨b, more, bytes, head, rest⟩ := legible_cons h
    rw [ofScalars_append, ← List.append_assoc] at head
    have width : x.width = more.length + 1 := by simp [Scalar.width, bytes]
    have shorter : Scalar.ofHead b (more ++ ofScalars l₁) = x := by
      rw [Scalar.ofHead_of_append (t := ofScalars l₂), head]
      rw [head, width]
      simp
    rw [Legible, ofScalars_cons, bytes, List.cons_append, scalars_cons, shorter, width,
      Nat.add_sub_cancel, List.drop_left, ih rest]

/-- A character of a text that is not stray is UTF-8 by itself. -/
theorem isUtf8_of_mem_scalars {s : Bytes} {c : Scalar} (mem : c ∈ s.scalars)
    (valid : c.isStray = false) : c.bytes.isUtf8 = true := by
  obtain ⟨before, after, split⟩ := List.append_of_mem mem
  have here : Legible ([c] ++ after) := by
    have whole := legible_scalars s
    rw [split] at whole
    exact legible_of_append_right whole
  have alone : Legible [c] := legible_of_append_left here
  rw [Legible, ofScalars_cons, ofScalars_nil, List.append_nil] at alone
  simp [isUtf8, alone, valid]

theorem form_of_mem_scalars {s : Bytes} (h : s.isUtf8 = true) :
    ∀ c ∈ s.scalars, Scalar.Form c.bytes c.code := by
  induction n : s.length using Nat.strongRecOn generalizing s with
  | ind n ih =>
  cases s with
  | nil => nofun
  | cons b rest =>
    rw [isUtf8, scalars_cons, List.all_cons, Bool.and_eq_true, Bool.not_eq_true'] at h
    rw [scalars_cons]
    refine List.forall_mem_cons.2 ⟨Scalar.form_ofHead h.1, ?_⟩
    exact ih _ (by simp at n ⊢; omega) h.2 rfl

/-- Texts in UTF-8 with the same code points are the same. -/
theorem eq_of_codes {s t : Bytes} (hs : s.isUtf8 = true) (ht : t.isUtf8 = true)
    (h : s.scalars.map Scalar.code = t.scalars.map Scalar.code) : s = t := by
  have forms := form_of_mem_scalars hs
  have forms' := form_of_mem_scalars ht
  rw [← ofScalars_scalars s, ← ofScalars_scalars t]
  generalize s.scalars = xs at *
  generalize t.scalars = ys at *
  induction xs generalizing ys with
  | nil =>
    cases List.map_eq_nil_iff.1 h.symm
    rfl
  | cons x xs ih =>
    obtain ⟨y, ys, rfl, code, rest⟩ := List.map_eq_cons_iff.1 h.symm
    have here := forms x (List.mem_cons_self ..)
    rw [← code] at here
    rw [ofScalars_cons, ofScalars_cons, here.unique (forms' y (List.mem_cons_self ..)),
      ih (fun c mem => forms c (List.mem_cons_of_mem _ mem)) ys
        (fun c mem => forms' c (List.mem_cons_of_mem _ mem)) rest.symm]

end Bytes

end Rulebook

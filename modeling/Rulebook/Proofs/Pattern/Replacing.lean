import Mathlib
import Rulebook.Proofs.Pattern.Lines
import Rulebook.Proofs.Rule.Tokens
import Rulebook.Proofs.Text.CharSet

/-!
# Taking the names of groups out of a pattern

To replace all matches of a pattern is to put another text in place of each match that a search finds
(`Regex.replaceAll`). Where the pattern is the one that starts a named group, that comes to reading
the text once from its start and leaving out the names (`Regex.replaceAll_names`).
-/

namespace Rulebook

namespace Bytes

/-- What follows the name of a group, if the text starts with one. -/
def afterName? : Bytes → Option Bytes
  | 63 :: 80 :: 60 :: s =>
      match s.dropWhile isWord with
      | 62 :: rest => if (s.takeWhile isWord).isEmpty then none else some rest
      | _ => none
  | _ => none

theorem afterName?_eq_some {s rest : Bytes} :
    afterName? s = some rest ↔ ∃ name, isValidName name = true ∧
      s = [63, 80, 60] ++ name ++ 62 :: rest := by
  constructor
  · intro h
    unfold afterName? at h
    split at h
    · rename_i s
      split at h
      · rename_i rest' ends
        split at h
        · cases h
        · rename_i some_byte
          cases h
          refine ⟨s.takeWhile isWord, ?_, ?_⟩
          · rw [isValidName, Bool.and_eq_true]
            exact ⟨by simpa using some_byte, List.all_eq_true.2 fun b => List.mem_takeWhile_imp⟩
          · rw [← ends, List.append_assoc, List.takeWhile_append_dropWhile]
            rfl
      · cases h
    · cases h
  · rintro ⟨name, valid, rfl⟩
    rw [isValidName, Bool.and_eq_true] at valid
    obtain ⟨some_byte, word⟩ := valid
    have word := List.all_eq_true.1 word
    have taken : (name ++ 62 :: rest).takeWhile isWord = name := by
      rw [List.takeWhile_append_of_pos word, List.takeWhile_cons_of_neg (by decide), List.append_nil]
    have left : (name ++ 62 :: rest).dropWhile isWord = 62 :: rest := by
      rw [List.dropWhile_append_of_pos word, List.dropWhile_cons_of_neg (by decide)]
    change afterName? (63 :: 80 :: 60 :: (name ++ 62 :: rest)) = some rest
    simp only [afterName?, left, taken]
    rw [if_neg (by simpa using some_byte)]

theorem length_afterName? {s rest : Bytes} (h : afterName? s = some rest) :
    rest.length < s.length := by
  obtain ⟨name, -, rfl⟩ := afterName?_eq_some.1 h
  simp
  omega

/-- A text without the names of groups. -/
def withoutNames : Bytes → Bytes
  | [] => []
  | b :: s =>
      if b = 40 then
        match h : afterName? s with
        | some rest =>
            have := length_afterName? h
            40 :: withoutNames rest
        | none => 40 :: withoutNames s
      else b :: withoutNames s
termination_by s => s.length

theorem withoutNames_other {b : UInt8} (other : b ≠ 40) (s : Bytes) :
    withoutNames (b :: s) = b :: withoutNames s := by
  rw [withoutNames, if_neg other]

theorem withoutNames_open {s : Bytes} (none : afterName? s = none) :
    withoutNames (40 :: s) = 40 :: withoutNames s := by
  rw [withoutNames, if_pos rfl]
  split
  · rename_i some_name
    rw [none] at some_name
    cases some_name
  · rfl

theorem withoutNames_named {name : Bytes} (valid : isValidName name = true) (s : Bytes) :
    withoutNames ([40, 63, 80, 60] ++ name ++ 62 :: s) = 40 :: withoutNames s := by
  have after : afterName? ([63, 80, 60] ++ name ++ 62 :: s) = some s :=
    afterName?_eq_some.2 ⟨name, valid, rfl⟩
  change withoutNames (40 :: ([63, 80, 60] ++ name ++ 62 :: s)) = _
  rw [withoutNames, if_pos rfl]
  split
  · rename_i same
    rw [after] at same
    cases same
    rfl
  · rename_i none
    rw [after] at none
    cases none

/-- A part of a text in which no name of a group starts stays as it is. -/
theorem withoutNames_append (s t : Bytes)
    (none : ∀ front back, s = front ++ 40 :: back → afterName? (back ++ t) = none) :
    withoutNames (s ++ t) = s ++ withoutNames t := by
  induction s with
  | nil => rfl
  | cons b s ih =>
    have later := ih fun front back eq => none (b :: front) back (by rw [eq]; rfl)
    by_cases isOpen : b = 40
    · subst isOpen
      have here := none [] s rfl
      rw [List.cons_append, withoutNames_open here, later, List.cons_append]
    · rw [List.cons_append, withoutNames_other isOpen, later, List.cons_append]

end Bytes

namespace Pattern

open Bytes

/-! ### Replacing matches -/

/-- A source from an offset on, with another text in place of each match. -/
def splice (source new : Bytes) : Nat → List Program.Found → Bytes
  | o, [] => source.drop o
  | o, f :: fs => source.slice o f.start ++ new ++ splice source new f.finish fs

/-- A text with another text in place of each match. -/
def Regex.replaceAll (r : Regex) (new text : Bytes) : Bytes := splice text new 0 (r.findAll text)

/-! ### Names of groups -/

/-- The characters of a name. -/
def wordSet : CharSet := ⟨[(48, 57), (65, 90), (95, 95), (97, 122)]⟩

/-- What starts a named group. -/
def groupName : Expr :=
  .cat (.one ⟨[(40, 40)]⟩) (.cat (.one ⟨[(63, 63)]⟩) (.cat (.one ⟨[(80, 80)]⟩) (.cat (.one ⟨[(60, 60)]⟩)
    (.cat (.plus true (.one wordSet)) (.one ⟨[(62, 62)]⟩)))))

variable {c d : Cursor} {s : Bytes} {w : List Scalar}

theorem ascii_mem_language {a : UInt8} (ascii : a < 0x80) :
    [.ascii a] ∈ (Expr.one ⟨[(a.toNat, a.toNat)]⟩).language := by
  refine ⟨_, rfl, CharSet.contains_iff.2 ⟨_, List.mem_singleton_self _, ?_⟩⟩
  rw [Scalar.code_ascii ascii]
  exact ⟨Nat.le_refl _, Nat.le_refl _⟩

theorem eq_ascii_of_mem_language {a : UInt8} (ascii : a < 0x80) (sub : ∀ x ∈ w, x ∈ s.scalars)
    (mem : w ∈ (Expr.one ⟨[(a.toNat, a.toNat)]⟩).language) : w = [.ascii a] := by
  obtain ⟨x, rfl, taken⟩ := mem
  have code : x.code = a.toNat := by
    obtain ⟨range, mem, low, high⟩ := CharSet.contains_iff.1 taken
    obtain rfl := List.mem_singleton.1 mem
    exact Nat.le_antisymm high low
  have low : a.toNat < 128 := ascii
  obtain ⟨b, -, ascii', rfl⟩ := exists_ascii_of_mem (sub x (List.mem_singleton_self x)) (by omega)
  rw [Scalar.code_ascii ascii', UInt8.toNat_inj] at code
  rw [code]

theorem contains_wordSet (a : UInt8) : wordSet.contains a.toNat = isWord a := by
  rw [Bool.eq_iff_iff, CharSet.contains_iff]
  simp only [wordSet, isWord, List.mem_cons, List.not_mem_nil, or_false, Bool.or_eq_true, Bool.and_eq_true,
    decide_eq_true_eq, beq_iff_eq, UInt8.le_iff_toNat_le, ← UInt8.toNat_inj]
  simp
  omega

theorem name_mem_language {name : Bytes} (valid : isValidName name = true) :
    name.map Scalar.ascii ∈ (Expr.plus true (.one wordSet)).language := by
  rw [isValidName, Bool.and_eq_true, Bool.not_eq_true', List.isEmpty_eq_false_iff,
    List.all_eq_true] at valid
  obtain ⟨some_byte, word⟩ := valid
  rw [Expr.language, mem_multiples]
  refine ⟨name.map fun a => [Scalar.ascii a], ?_, ?_, fun piece mem => ?_⟩
  · rw [List.length_map]
    exact List.length_pos_iff.2 some_byte
  · rw [← List.flatMap_def, List.map_eq_flatMap]
  · obtain ⟨a, mem', rfl⟩ := List.mem_map.1 mem
    refine ⟨_, rfl, ?_⟩
    rw [Scalar.code_ascii (Rule.word_byte (word a mem')).1, contains_wordSet, word a mem']

theorem exists_name_of_mem_language (sub : ∀ x ∈ w, x ∈ s.scalars)
    (mem : w ∈ (Expr.plus true (.one wordSet)).language) :
    ∃ name, isValidName name = true ∧ w = name.map Scalar.ascii := by
  obtain ⟨pieces, several, rfl, all⟩ := mem_multiples.1 mem
  have word : ∀ x ∈ pieces.flatten, wordSet.contains x.code = true := by
    intro x mem
    obtain ⟨piece, mem, here⟩ := List.mem_flatten.1 mem
    obtain ⟨y, rfl, taken⟩ := all piece mem
    rwa [List.mem_singleton.1 here]
  have low : ∀ x ∈ pieces.flatten, x.code < 0x80 := by
    intro x mem
    obtain ⟨range, mem, -, high⟩ := CharSet.contains_iff.1 (word x mem)
    have top : ∀ range ∈ wordSet.ranges, range.2 < 0x80 := by decide
    exact Nat.lt_of_le_of_lt high (top range mem)
  obtain ⟨name, asciis, eq⟩ := exists_bytes_of_codes sub low
  refine ⟨name, ?_, eq⟩
  rw [isValidName, Bool.and_eq_true, Bool.not_eq_true', List.isEmpty_eq_false_iff, List.all_eq_true]
  constructor
  · rintro rfl
    obtain ⟨piece, rest, rfl⟩ := List.exists_cons_of_length_pos several
    obtain ⟨y, rfl, -⟩ := all piece (List.mem_cons_self ..)
    cases eq
  · intro a mem
    have here := word (.ascii a) (eq ▸ List.mem_map_of_mem mem)
    rwa [Scalar.code_ascii (asciis a mem), contains_wordSet] at here

/-- What starts the group with a name. -/
def header (name : Bytes) : Bytes := [40, 63, 80, 60] ++ name ++ [62]

theorem header_ascii {name : Bytes} (valid : isValidName name = true) : ∀ a ∈ header name, a < 0x80 := by
  have some_byte : name.isEmpty = false := by
    rw [isValidName, Bool.and_eq_true, Bool.not_eq_true'] at valid
    exact valid.1
  have ascii : ∀ a ∈ Rule.opening true name, a < 0x80 := Rule.opening_ascii (.inr valid)
  rwa [Rule.opening, if_neg (by simp [some_byte]), if_pos rfl] at ascii

theorem scalars_header {name : Bytes} (valid : isValidName name = true) (t : Bytes) :
    scalars (header name ++ t) = (header name).map Scalar.ascii ++ t.scalars :=
  scalars_ascii_append (header_ascii valid) t

theorem groupName_mem_language {name : Bytes} (valid : isValidName name = true) :
    (header name).map Scalar.ascii ∈ groupName.language := by
  have split : (header name).map Scalar.ascii =
      [Scalar.ascii 40] ++ ([Scalar.ascii 63] ++ ([Scalar.ascii 80] ++ ([Scalar.ascii 60] ++
        (name.map Scalar.ascii ++ [Scalar.ascii 62])))) := by
    simp [header]
  rw [split]
  refine Language.append_mem_mul (ascii_mem_language (a := 40) (by decide)) ?_
  refine Language.append_mem_mul (ascii_mem_language (a := 63) (by decide)) ?_
  refine Language.append_mem_mul (ascii_mem_language (a := 80) (by decide)) ?_
  refine Language.append_mem_mul (ascii_mem_language (a := 60) (by decide)) ?_
  exact Language.append_mem_mul (name_mem_language valid) (ascii_mem_language (a := 62) (by decide))

theorem exists_header_of_mem_language (sub : ∀ x ∈ w, x ∈ s.scalars) (mem : w ∈ groupName.language) :
    ∃ name, isValidName name = true ∧ w = (header name).map Scalar.ascii := by
  obtain ⟨_, h₁, _, ⟨_, h₂, _, ⟨_, h₃, _, ⟨_, h₄, _, ⟨_, h₅, _, h₆, rfl⟩, rfl⟩, rfl⟩, rfl⟩, rfl⟩ := mem
  simp only [List.forall_mem_append] at sub
  obtain ⟨s₁, s₂, s₃, s₄, s₅, s₆⟩ := sub
  obtain rfl := eq_ascii_of_mem_language (a := 40) (by decide) s₁ h₁
  obtain rfl := eq_ascii_of_mem_language (a := 63) (by decide) s₂ h₂
  obtain rfl := eq_ascii_of_mem_language (a := 80) (by decide) s₃ h₃
  obtain rfl := eq_ascii_of_mem_language (a := 60) (by decide) s₄ h₄
  obtain rfl := eq_ascii_of_mem_language (a := 62) (by decide) s₆ h₆
  obtain ⟨name, valid, rfl⟩ := exists_name_of_mem_language s₅ h₅
  exact ⟨name, valid, by simp [header]⟩

/-- What starts a named group leads over its bytes, up to the pattern of the group. -/
theorem leads_groupName (text : c.rest = s.scalars) :
    groupName.Leads c d ↔ ∃ name t, isValidName name = true ∧ s = header name ++ t ∧
      d = c.advance ((header name).map Scalar.ascii) (Bytes.scalars t) := by
  rw [Expr.leads_of_free rfl]
  constructor
  · rintro ⟨w, mem, rest, place⟩
    rw [text] at rest
    obtain ⟨name, valid, rfl⟩ :=
      exists_header_of_mem_language (fun x mem => rest ▸ List.mem_append_left _ mem) mem
    have legible : Legible (_ ++ d.rest) := rest ▸ legible_scalars s
    have whole := congrArg ofScalars rest
    rw [ofScalars_scalars, ofScalars_append, ofScalars_map_ascii] at whole
    refine ⟨name, _, valid, whole, ?_⟩
    rwa [legible_of_append_right legible]
  · rintro ⟨name, t, valid, rfl, rfl⟩
    exact ⟨_, groupName_mem_language valid, text.trans (scalars_header valid t), rfl⟩

/-! ### All names -/

theorem withoutNames_header {name : Bytes} (valid : isValidName name = true) (t : Bytes) :
    withoutNames (header name ++ t) = 40 :: withoutNames t := by
  rw [header, List.append_assoc, List.singleton_append]
  exact withoutNames_named valid t

/-- If the start of a named group leads nowhere from any character of a part of a text, the part holds
    no name. -/
theorem withoutNames_of_none (s t : Bytes) (text : c.rest = scalars (s ++ t))
    (none : ∀ d ∈ c.onward, d.offset < c.offset + s.length → ∀ d', ¬ groupName.Leads d d') :
    withoutNames (s ++ t) = s ++ withoutNames t := by
  refine withoutNames_append s t fun front back eq => ?_
  cases after : afterName? (back ++ t) with
  | none => rfl
  | some rest =>
    obtain ⟨name, valid, found⟩ := afterName?_eq_some.1 after
    have there : 40 :: (back ++ t) = header name ++ rest := by
      rw [found]
      simp [header]
    rw [eq, List.append_assoc, List.cons_append, there] at text
    have cut : scalars (front ++ (header name ++ rest)) =
        scalars front ++ scalars (header name ++ rest) := by
      rw [← there, scalars_append_ascii front (by decide)]
    have leads := (leads_groupName (c := c.advance (scalars front) (scalars (header name ++ rest))) rfl).2
      ⟨name, rest, valid, rfl, rfl⟩
    refine absurd leads (none _ (Cursor.advance_mem_onward (text.trans cut)) ?_ _)
    rw [Cursor.offset_advance, ofScalars_scalars, eq, List.length_append, List.length_cons]
    omega

/-- A match of the start of a named group, and what comes before and after it. -/
theorem find?_groupName {source : Bytes} {f : Program.Found} (text : c.rest = scalars (source.drop c.offset))
    (found : (Program.ofExpr groupName).find? c = some f) :
    c.offset ≤ f.start ∧ f.start < f.finish ∧ f.stop.rest = scalars (source.drop f.finish) ∧
      withoutNames (source.drop c.offset) =
        source.slice c.offset f.start ++ 40 :: withoutNames (source.drop f.finish) := by
  have spec := Program.find?_spec groupName (c := c) (text ▸ wide_scalars _)
  rw [found] at spec
  obtain ⟨d, onward, matched, first⟩ := spec
  obtain ⟨taken, split, place⟩ := Cursor.mem_onward.1 onward
  have legible : Legible (taken ++ d.rest) := by
    rw [← split, text]
    exact legible_scalars _
  have here : d.rest = scalars (ofScalars d.rest) := (legible_of_append_right legible).symm
  have front : scalars (ofScalars taken) = taken := legible_of_append_left legible
  obtain ⟨name, t, valid, eq, stop⟩ := (leads_groupName here).1 ⟨_, Expr.reaches_iff.1 matched.path⟩
  have whole : source.drop c.offset = ofScalars taken ++ (header name ++ t) := by
    rw [← ofScalars_scalars (source.drop c.offset), ← text, split, ofScalars_append, eq]
  have starts : f.start = c.offset + (ofScalars taken).length := by
    rw [matched.start, place, Cursor.offset_advance]
  have finish : f.finish = f.start + (header name).length := by
    rw [Program.Found.finish, stop, Cursor.offset_advance, ofScalars_map_ascii, matched.start]
  have rest : source.drop f.finish = t := by
    rw [finish, starts, Nat.add_assoc, ← List.drop_drop, whole, ← List.length_append,
      ← List.append_assoc, List.drop_left]
  have some_byte : 0 < (header name).length := by
    rw [header, List.length_append, List.length_append]
    exact Nat.succ_pos _
  refine ⟨by omega, by omega, by rw [rest, stop]; rfl, ?_⟩
  · have before : source.slice c.offset f.start = ofScalars taken := by
      rw [Bytes.slice, starts, Nat.add_sub_cancel_left, whole, List.take_left]
    rw [rest, before, whole, ← withoutNames_header valid t]
    refine withoutNames_of_none _ _ (text.trans (congrArg scalars whole)) fun d' mem low d'' leads => ?_
    obtain ⟨m, leads⟩ := leads
    refine first d' mem ?_ d'' m (Expr.reaches_iff.2 leads)
    rw [place, Cursor.offset_advance]
    exact low

/-- The text from a place on with the start of each named group replaced. By induction on the
    matches. -/
theorem splice_lists {source : Bytes} {last : Option Nat} {fs : List Program.Found}
    (lists : Program.Lists (Program.ofExpr groupName) last c fs)
    (text : c.rest = scalars (source.drop c.offset)) :
    splice source [40] c.offset fs = withoutNames (source.drop c.offset) := by
  induction lists with
  | @none last c found =>
    have spec := Program.find?_spec groupName (c := c) (text ▸ wide_scalars _)
    rw [found] at spec
    have whole := withoutNames_of_none (source.drop c.offset) [] (by rwa [List.append_nil])
      fun d mem _ d' leads => leads.elim fun m leads => spec d mem d' m (Expr.reaches_iff.2 leads)
    rw [withoutNames, List.append_nil] at whole
    rw [splice, whole]
  | ended found finish =>
    obtain ⟨low, some_byte, -⟩ := find?_groupName text found
    omega
  | empty found finish =>
    obtain ⟨low, some_byte, -⟩ := find?_groupName text found
    omega
  | full found finish others ih =>
    obtain ⟨low, some_byte, rest, whole⟩ := find?_groupName text found
    rw [splice, whole, List.append_assoc]
    exact congrArg (fun later => _ ++ 40 :: later) (ih rest)

theorem parse_groupName : ∃ shape,
    Piece.parse "\\(\\?P<[A-Za-z0-9_]+>" = .ok ⟨groupName, shape⟩ ∧ Lead.ofShape? shape = none := by
  have checked : (Piece.parse "\\(\\?P<[A-Za-z0-9_]+>").toOption.any (fun p =>
      p.expr == groupName && (Lead.ofShape? p.shape).isNone) = true := by decide +kernel
  cases read : Piece.parse "\\(\\?P<[A-Za-z0-9_]+>" with
  | error f =>
    rw [read] at checked
    cases checked
  | ok p =>
    rcases p with ⟨e, shape⟩
    rw [read, Except.toOption, Option.any_some, Bool.and_eq_true, beq_iff_eq,
      Option.isNone_iff_eq_none] at checked
    rcases checked with ⟨rfl, lead⟩
    exact ⟨shape, rfl, lead⟩

theorem ofPattern_groupName : ∃ names : Regex,
    Regex.ofPattern "\\(\\?P<[A-Za-z0-9_]+>" = .ok names ∧ names.lead = none ∧
      names.program = .ofExpr groupName := by
  rcases parse_groupName with ⟨shape, parsed, lead⟩
  have alone : repeated? [] groupName.names = none := rfl
  refine ⟨⟨"\\(\\?P<[A-Za-z0-9_]+>", groupName.names, .ofExpr groupName, none⟩, ?_, rfl, rfl⟩
  rw [Regex.ofPattern, parsed]
  dsimp only
  rw [alone, lead]

/-- To put a parenthesis in place of each start of a named group is to leave out the names. -/
theorem Regex.replaceAll_names {names : Regex}
    (read : Regex.ofPattern "\\(\\?P<[A-Za-z0-9_]+>" = .ok names) (text : Bytes) :
    names.replaceAll "(" text = withoutNames text := by
  obtain ⟨names', read', lead, program⟩ := ofPattern_groupName
  obtain rfl : names' = names := Except.ok.inj (read'.symm.trans read)
  rw [replaceAll, findAll, lead, program]
  exact splice_lists (Program.lists_findAll _ none (.start text)) rfl

end Pattern

end Rulebook

import Rulebook.Proofs.Pattern.Letters
import Rulebook.Proofs.Rule.Captures
import Rulebook.Proofs.Tree.OfMatch

/-!
# What acceptance leaves open

A rule that is accepted is accepted as a whole. Of a named entry it says that no more than the size of
the entry's pattern can be held against it, and so nothing else can go wrong with a tree
(`Rule.Sound.checked`). The size is held against an entry when its pattern alone is weighed while the
pattern of the whole is not: a repetition that stands in front of the entry tells the matcher to weigh
all that follows, and to count what it has weighed only once (`Rule.accepted_entry_too_large`).
-/

namespace Rulebook

open Pattern

namespace Rule

open Token (scan)

/-- What is known of the trees of a rule that is accepted. -/
structure Checked (r : Rule) : Prop where
  accepted : Accepted r
  /-- The named entries, at any depth. -/
  entries : ∀ e ∈ reach r.entries, e.isNamed = true → Accepted e.rule ∨ TooLarge e.rule
  trees : ∀ text e, .error e ∈ r.trees text → ∃ p, e = .rejected p (.fault ⟨.tooLarge, p⟩)
  parse : ∀ text e, r.parse text = .error e → ∃ p, e = .rejected p (.fault ⟨.tooLarge, p⟩)

theorem mem_of_mapM_id {α ε : Type} {xs : List (Except ε α)} {e : ε} (h : xs.mapM id = .error e) :
    .error e ∈ xs := by
  induction xs with
  | nil => cases h
  | cons x xs ih =>
    cases x with
    | error e' =>
      cases h
      exact List.mem_cons_self ..
    | ok a =>
      refine List.mem_cons_of_mem _ (ih ?_)
      rw [List.mapM_cons] at h
      cases later : xs.mapM id with
      | error e' =>
        rw [later] at h
        cases h
        rfl
      | ok as =>
        rw [later] at h
        cases h

theorem Sound.checked {r : Rule} (sound : Sound r) (accepted : Accepted r) : Checked r where
  accepted := accepted
  entries _ mem isNamed := sound.entry_accepted accepted mem isNamed
  trees _ _ mem := sound.trees_error accepted mem
  parse _ _ failed := sound.trees_error accepted (mem_of_mapM_id failed)

/-! ### Patterns with a run of letters -/

theorem names_letters (code n : Nat) (rest : List Token) :
    Token.names (List.replicate n (Token.char code) ++ rest) = Token.names rest := by
  induction n with
  | zero => rfl
  | succ n ih =>
    rw [List.replicate_succ, List.cons_append]
    exact ih

theorem ofPattern_of_parse {source : Bytes} {tokens : List Token}
    (scanned : scan source.scalars = tokens.map .ok)
    (parsed : ∃ piece, Piece.parse source = .ok piece)
    (unique : repeated? [] (Token.names tokens) = none) :
    ∃ regex, Regex.ofPattern source = .ok regex := by
  obtain ⟨⟨e, shape⟩, parsed⟩ := parsed
  rw [Regex.ofPattern, parsed]
  simp only
  rw [names_of_parse scanned parsed, unique]
  exact ⟨_, rfl⟩

/-- A plain rule is accepted if both of its patterns are read to their ends. -/
theorem Plain.accepted_of_parse {r : Rule} (plain : Plain r)
    (search : ∃ piece, Piece.parse r.namedPattern = .ok piece)
    (whole : ∃ piece, Piece.parse (anchor r.namedPattern) = .ok piece)
    (unique : repeated? [] (Token.names (tokens true r)) = none) : Accepted r := by
  have names : Token.names (anchored (tokens true r)) = Token.names (tokens true r) := by
    change Token.names (tokens true r ++ [Token.close, .dollar]) = _
    rw [Token.names_append]
    simp [Token.names]
  obtain ⟨found, compiled⟩ := ofPattern_of_parse (plain.scan_alone true) search unique
  obtain ⟨found', compiled'⟩ := ofPattern_of_parse plain.scan_anchor whole (names ▸ unique)
  change Regex.ofPattern r.namedPattern = _ at compiled
  refine ⟨⟨found, found'⟩, ?_⟩
  rw [compile, compiled, compiled']

theorem namesClass_cons {c : Scalar} (plain : c.char ≠ '[') (s : List Scalar) :
    namesClass (c :: s) = namesClass s := by
  cases s <;> simp [namesClass, plain]

section

variable {r : Rule} {front rest : List Token} {code n : Nat}

theorem Plain.accepted_of_endsAfter (plain : Plain r)
    (shape : tokens true r = front ++ (List.replicate n (Token.char code) ++ rest))
    (unique : repeated? [] (Token.names (front ++ rest)) = none)
    (search : Reading.endsAfter r.namedPattern front code n rest = some true)
    (whole : Reading.endsAfter (anchor r.namedPattern) (.caret :: .enclose [] :: front) code n
      (rest ++ [Token.close, .dollar]) = some true) : Accepted r := by
  have names : Token.names (tokens true r) = Token.names (front ++ rest) := by
    rw [shape, Token.names_append, names_letters, Token.names_append]
  have anchors : anchored (tokens true r) = (.caret :: .enclose [] :: front) ++
      (List.replicate n (Token.char code) ++ (rest ++ [Token.close, .dollar])) := by
    simp [anchored, shape]
  have scanned := plain.scan_alone true
  have scanned' := plain.scan_anchor
  rw [shape] at scanned
  rw [anchors] at scanned'
  exact plain.accepted_of_parse ((Reading.parse_of_endsAfter scanned search).2 rfl)
    ((Reading.parse_of_endsAfter scanned' whole).2 rfl) (names ▸ unique)

theorem Plain.not_accepted_of_endsAfter (plain : Plain r)
    (shape : tokens true r = front ++ (List.replicate n (Token.char code) ++ rest))
    (search : Reading.endsAfter r.namedPattern front code n rest = some false) : ¬ Accepted r := by
  rintro ⟨c, compiled⟩
  obtain ⟨piece, parsed, -⟩ := Regex.of_ofPattern (compile_ok compiled).1
  have scanned := plain.scan_alone true
  rw [shape] at scanned
  cases (Reading.parse_of_endsAfter scanned search).1 ⟨piece, parsed⟩

end

/-! ### An entry that is too large -/

namespace Sample

/-- A group of three letters, some more of them and another, a thousand times. -/
def letters (n : Nat) : Bytes :=
  ("(?:aaa" : Bytes) ++ ((List.replicate n 97 : Bytes) ++ ("[bc]){1000}d" : Bytes))

/-- Two letters, each a thousand times. -/
def thousands : Bytes := "x{1000}y{1000}"

/-- A repetition of many letters before two of few. -/
def inside (n : Nat) : Rule := .combine 2 .seq [⟨[], .regex 0 (letters n)⟩, ⟨[], .regex 1 thousands⟩]

/-- The same as a named entry, after two repetitions of few letters. -/
def around (n : Nat) : Rule := .combine 3 .seq [⟨[], .regex 1 thousands⟩, ⟨"c", inside n⟩]

def thousandTimes : Token := .repeated (.times 1000 (some 1000)) false "{1000}"

def thousandsTokens : List Token := [.char 120, thousandTimes, .char 121, thousandTimes]

def lettersStart : List Token := [.enclose [], .char 97, .char 97, .char 97]

def lettersEnd : List Token :=
  [.set [⟨⟨[(98, 98)]⟩, false⟩, ⟨⟨[(99, 99)]⟩, false⟩] false, .close, thousandTimes, .char 100]

def insideStart : List Token := .capture [] :: .enclose [] :: lettersStart

def insideEnd : List Token :=
  lettersEnd ++ .close :: .enclose [] :: (thousandsTokens ++ [.close, .close])

def aroundStart : List Token :=
  .capture [] :: .enclose [] :: (thousandsTokens ++ .close :: .capture "c" :: insideStart)

def aroundEnd : List Token := insideEnd ++ [.close, .close]

theorem scan_replicate (n : Nat) (s : List Scalar) :
    scan (List.replicate n (Scalar.ascii 97) ++ s) =
      List.replicate n (.ok (Token.char 97)) ++ scan s := by
  induction n with
  | zero => rfl
  | succ n ih =>
    rw [List.replicate_succ, List.cons_append, Token.scan_cons, List.replicate_succ,
      List.cons_append, ← ih]
    rfl

theorem ascii_letters (n : Nat) : ∀ b ∈ letters n, b < 0x80 := by
  intro b mem
  have opening : ∀ b ∈ ("(?:aaa" : Bytes), b < 0x80 := by decide
  have closing : ∀ b ∈ ("[bc]){1000}d" : Bytes), b < 0x80 := by decide
  rcases List.mem_append.1 mem with mem | mem
  · exact opening b mem
  · rcases List.mem_append.1 mem with mem | mem
    · rw [List.eq_of_mem_replicate mem]
      decide
    · exact closing b mem

theorem scalars_letters (n : Nat) : (letters n).scalars =
    Scalar.ascii 40 :: Scalar.ascii 63 :: Scalar.ascii 58 ::
      (List.replicate (n + 3) (Scalar.ascii 97) ++ Bytes.scalars "[bc]){1000}d") := by
  have opening : ∀ b ∈ ("(?:aaa" : Bytes), b < 0x80 := by decide
  have low : ∀ b ∈ List.replicate n (97 : UInt8), b < 0x80 := by
    intro b mem
    rw [List.eq_of_mem_replicate mem]
    decide
  rw [letters, Bytes.scalars_ascii_append opening, Bytes.scalars_ascii_append low, List.map_replicate]
  rfl

theorem namesClass_letters (n : Nat) : namesClass (letters n).scalars = false := by
  have run : namesClass (List.replicate (n + 3) (Scalar.ascii 97) ++
      Bytes.scalars "[bc]){1000}d") = false := by
    induction n + 3 with
    | zero => decide
    | succ n ih => rw [List.replicate_succ, List.cons_append, namesClass_cons (by decide), ih]
  rw [scalars_letters, namesClass_cons (by decide), namesClass_cons (by decide),
    namesClass_cons (by decide), run]

theorem unquoted_letters (n : Nat) : (letters n).scalars.all (·.char != 'Q') = true := by
  have run : (List.replicate (n + 3) (Scalar.ascii 97)).all (·.char != 'Q') = true := by
    rw [List.all_eq_true]
    intro c mem
    rw [List.eq_of_mem_replicate mem]
    decide
  have closing : (Bytes.scalars "[bc]){1000}d").all (·.char != 'Q') = true := by decide
  rw [scalars_letters, List.all_cons, List.all_cons, List.all_cons, List.all_append, run, closing]
  decide

theorem plainLeaf_letters (n : Nat) : PlainLeaf (letters n) ∧
    leafTokens (letters n) = lettersStart ++ (List.replicate n (Token.char 97) ++ lettersEnd) := by
  have last : scan (Bytes.scalars "[bc]){1000}d") = lettersEnd.map .ok := by decide +kernel
  refine plainLeaf_of_scan ?_ (Bytes.isUtf8_of_ascii (ascii_letters n)) ?_ ?_
  · rw [scalars_letters, Token.scan_cons, next_enclose, scan_replicate, last]
    simp [lettersStart, List.replicate_succ]
  · rw [show (letters n).head? = some 40 from rfl]
    decide
  · rw [namesClass_letters, unquoted_letters]
    rfl

theorem plainLeaf_thousands : PlainLeaf thousands ∧ leafTokens thousands = thousandsTokens :=
  plainLeaf_of_scan (by decide +kernel) (by decide) (by decide) (by decide)

theorem plain_inside (n : Nat) : Plain (inside n) := by
  refine plain_combine 2 .seq (by simp) ?_
  simp only [List.forall_mem_cons, List.not_mem_nil, false_implies, implies_true, and_true]
  exact ⟨(plainLeaf_letters n).1.plain 0, plainLeaf_thousands.1.plain 1⟩

theorem plain_around (n : Nat) : Plain (around n) := by
  refine plain_combine 3 .seq (by simp; decide) ?_
  simp only [List.forall_mem_cons, List.not_mem_nil, false_implies, implies_true, and_true]
  exact ⟨plainLeaf_thousands.1.plain 1, plain_inside n⟩

theorem tokens_inside (n : Nat) :
    tokens true (inside n) = insideStart ++ (List.replicate n (Token.char 97) ++ insideEnd) := by
  simp only [inside, tokens, seqTokens, literal?, embedTokens, (plainLeaf_letters n).2,
    plainLeaf_thousands.2]
  simp [isGrouped, kind, openToken, textTokens, repetition, insideStart, insideEnd]

theorem tokens_around (n : Nat) :
    tokens true (around n) = aroundStart ++ (List.replicate n (Token.char 97) ++ aroundEnd) := by
  have alone : literal? "c" (inside n) = none := rfl
  have named : ("c" : Bytes).isEmpty = false := rfl
  rw [around, tokens, if_neg (by decide)]
  simp only [seqTokens, alone, tokens_inside]
  simp [embedTokens, tokens, literal?, plainLeaf_thousands.2, isGrouped, kind, openToken,
    textTokens, repetition, named, aroundStart, aroundEnd]

theorem accepted_thousands : Accepted (.regex 1 thousands) :=
  (plainLeaf_thousands.1.plain 1).accepted_of_parse
    ((Reading.parse_iff_ends thousands).2 (by decide +kernel))
    ((Reading.parse_iff_ends (anchor thousands)).2 (by decide +kernel))
    (by
      rw [tokens, plainLeaf_thousands.2]
      decide)

/-- By itself the leaf with the letters is accepted: nothing tells the matcher to weigh it. -/
theorem accepted_letters : Accepted (.regex 0 (letters 3353)) :=
  ((plainLeaf_letters 3353).1.plain 0).accepted_of_endsAfter (plainLeaf_letters 3353).2 (by decide)
    (by decide +kernel) (by decide +kernel)

theorem accepted_around : Accepted (around 3353) :=
  (plain_around 3353).accepted_of_endsAfter (tokens_around 3353) (by decide) (by decide +kernel)
    (by decide +kernel)

theorem not_accepted_inside : ¬ Accepted (inside 3353) :=
  (plain_inside 3353).not_accepted_of_endsAfter (tokens_inside 3353) (by decide +kernel)

theorem sound_around : Sound (around 3353) := by
  have few : Sound (.regex 1 thousands) := sound_regex accepted_thousands
  have many : Sound (.regex 0 (letters 3353)) := sound_regex accepted_letters
  refine sound_combine 3 .seq (by simp; decide) ?_
  simp only [List.forall_mem_cons, List.not_mem_nil, false_implies, implies_true, and_true]
  refine ⟨few, sound_combine 2 .seq (by simp) ?_⟩
  simp only [List.forall_mem_cons, List.not_mem_nil, false_implies, implies_true, and_true]
  exact ⟨many, few⟩

end Sample

/-- A rule may be accepted, with leaves that are accepted, and a named entry refused. -/
theorem accepted_entry_too_large :
    Sound (Sample.around 3353) ∧ Accepted (Sample.around 3353) ∧
      (⟨"c", Sample.inside 3353⟩ : Entry Rule) ∈ reach (Sample.around 3353).entries ∧
      ¬ Accepted (Sample.inside 3353) ∧ TooLarge (Sample.inside 3353) := by
  have mem : (⟨"c", Sample.inside 3353⟩ : Entry Rule) ∈ reach (Sample.around 3353).entries :=
    mem_reach (by simp [Sample.around, entries])
  have refused := Sample.not_accepted_inside
  have large := (Sample.sound_around.entry_accepted Sample.accepted_around mem rfl).resolve_left refused
  exact ⟨Sample.sound_around, Sample.accepted_around, mem, refused, large⟩

end Rule

end Rulebook

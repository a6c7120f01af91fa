import Rulebook.Pattern.Token.Class

/-!
# Cutting a pattern into tokens

`Token.scan` cuts a pattern into tokens. A fault in the form of a token stands in the list at the
place of that token; whoever reads the tokens in order meets the first fault of the pattern.
-/

namespace Rulebook

namespace Pattern

namespace Token

/-! ### Groups -/

/-- A letter, digit or underscore of ASCII. -/
def isNameChar (s : Scalar) : Bool := Scalar.isWordChar s.char

/-- What opens a named group. `mark` is its text up to the name, and `s` starts at the name. -/
def namedGroup (mark s : List Scalar) : Except Fault (Token × List Scalar) :=
  match cutAt? '>' s with
  | none =>
      match checkUtf8 s with
      | .error fault => .error fault
      | .ok () => refuseAll .invalidNamedCapture (mark ++ s)
  | some (name, rest) =>
      match checkUtf8 name with
      | .error fault => .error fault
      | .ok () =>
          if !name.isEmpty && name.all isNameChar then .ok (.capture (Bytes.ofScalars name), rest)
          else refuseAll .invalidNamedCapture (mark ++ s.take (name.length + 1))

theorem namedGroup_length (mark s : List Scalar) {x : Token} {rest : List Scalar}
    (h : namedGroup mark s = .ok (x, rest)) : rest.length ≤ s.length := by
  revert h
  fun_cases namedGroup mark s <;> grind -linarith [refuseAll, → cutAt?_length]

/-- The setting that a letter stands for. -/
def flag? (c : Char) : Option Flag :=
  match c with
  | 'i' => some .fold
  | 'm' => some .lines
  | 's' => some .dotAll
  | 'U' => some .lazy
  | _ => none

/-- The settings after `(?`, up to the colon or parenthesis that ends them. Those after a minus are
    switched off, and a minus needs one. `whole` starts at the parenthesis. -/
def flagGroup (whole : List Scalar) (minus seen : Bool) (changes : List (Flag × Bool)) :
    List Scalar → Except Fault (Token × List Scalar)
  | [] => refuseAll .invalidGroup whole
  | c :: rest =>
      if c.isStray then refuseAll .invalidUtf8 (c :: rest)
      else
        match flag? c.char with
        | some flag => flagGroup whole minus true (changes ++ [(flag, !minus)]) rest
        | none =>
            if c.char == '-' && !minus then flagGroup whole true false changes rest
            else if minus && !seen then refuse .invalidGroup whole rest
            else if c.char == ':' then .ok (.enclose changes, rest)
            else if c.char == ')' then .ok (.change changes, rest)
            else refuse .invalidGroup whole rest

theorem flagGroup_length (whole : List Scalar) (minus seen : Bool) (changes : List (Flag × Bool))
    (s : List Scalar) {x : Token} {rest : List Scalar}
    (h : flagGroup whole minus seen changes s = .ok (x, rest)) : rest.length ≤ s.length := by
  fun_induction flagGroup whole minus seen changes s <;> grind -linarith [refuse, refuseAll]

/-- What follows an opening parenthesis. A name needs at least one character after its bracket to
    be taken for one. -/
def group (paren : Scalar) (s : List Scalar) : Except Fault (Token × List Scalar) :=
  match s with
  | q :: rest =>
      if q.char == '?' then
        match rest with
        | p :: b :: c :: rest' =>
            if p.char == 'P' && b.char == '<' then namedGroup [paren, q, p, b] (c :: rest')
            else if p.char == '<' then namedGroup [paren, q, p] (b :: c :: rest')
            else flagGroup (paren :: s) false false [] rest
        | [p, b] =>
            if p.char == '<' then namedGroup [paren, q, p] [b]
            else flagGroup (paren :: s) false false [] rest
        | _ => flagGroup (paren :: s) false false [] rest
      else .ok (.capture [], s)
  | [] => .ok (.capture [], s)

theorem group_length (paren : Scalar) (s : List Scalar) {x : Token} {rest : List Scalar}
    (h : group paren s = .ok (x, rest)) : rest.length ≤ s.length := by
  unfold group at h
  grind -linarith [→ namedGroup_length, → flagGroup_length]

/-! ### Repetition -/

/-- A number without leading zeros. -/
def number? (s : List Scalar) : Option (Nat × List Scalar) :=
  let digits := s.takeWhile (·.char.isDigit)
  if digits.isEmpty || (digits.length > 1 && (s.head?.map Scalar.char) == some '0') then none
  else some (digits.foldl (fun n d => n * 10 + (d.char.toNat - 48)) 0,
    s.dropWhile (·.char.isDigit))

theorem number?_length (s : List Scalar) {n : Nat} {rest : List Scalar}
    (h : number? s = some (n, rest)) : rest.length ≤ s.length := by
  have le := (List.dropWhile_sublist (fun d : Scalar => d.char.isDigit) (l := s)).length_le
  revert h
  fun_cases number? s <;> grind -linarith

/-- The counts after an opening brace, up to the closing brace. -/
def counts? (s : List Scalar) : Option ((Nat × Option Nat) × List Scalar) :=
  match number? s with
  | none => none
  | some (min, rest) =>
      match rest with
      | c :: rest' =>
          if c.char == '}' then some ((min, some min), rest')
          else if c.char == ',' then
            match rest' with
            | d :: rest'' =>
                if d.char == '}' then some ((min, none), rest'')
                else
                  match number? rest' with
                  | some (max, e :: rest''') =>
                      if e.char == '}' then some ((min, some max), rest''') else none
                  | _ => none
            | [] => none
          else none
      | [] => none

theorem counts?_length (s : List Scalar) {x : Nat × Option Nat} {rest : List Scalar}
    (h : counts? s = some (x, rest)) : rest.length ≤ s.length := by
  revert h
  fun_cases counts? s <;> grind -linarith [→ number?_length]

/-- The greatest count. -/
def maxCount : Nat := 1000

/-- True if a count is above the greatest, or the least count above the most. -/
def badCounts (min : Nat) (max : Option Nat) : Bool :=
  maxCount < min ||
    match max with
    | some max => maxCount < max || max < min
    | none => false

/-- A repetition whose text is `mark`, with the question mark after it, if there is one. -/
def repetition (count : Count) (mark s : List Scalar) : Token × List Scalar :=
  match s with
  | c :: rest =>
      if c.char == '?' then (.repeated count true (Bytes.ofScalars (mark ++ [c])), rest)
      else (.repeated count false (Bytes.ofScalars mark), s)
  | [] => (.repeated count false (Bytes.ofScalars mark), s)

theorem repetition_length (count : Count) (mark s : List Scalar) :
    (repetition count mark s).2.length ≤ s.length := by
  fun_cases repetition count mark s <;> grind -linarith

/-- A repetition with counts, or a brace that stands for itself. -/
def braces (brace : Scalar) (s : List Scalar) : Except Fault (Token × List Scalar) :=
  match counts? s with
  | none => .ok (.char brace.code, s)
  | some ((min, max), rest) =>
      if badCounts min max then refuse .invalidRepeatSize (brace :: s) rest
      else .ok (repetition (.times min max) (brace :: s.take (s.length - rest.length)) rest)

theorem braces_length (brace : Scalar) (s : List Scalar) {x : Token} {rest : List Scalar}
    (h : braces brace s = .ok (x, rest)) : rest.length ≤ s.length := by
  revert h
  fun_cases braces brace s <;> grind -linarith [refuse, → counts?_length, repetition_length]

/-! ### Quoted text -/

/-- The text up to `\E`, and the text after it. -/
def cutQuoted : List Scalar → List Scalar × List Scalar
  | [] => ([], [])
  | s :: rest =>
      if s.char == '\\' && (rest.head?.map Scalar.char) == some 'E' then ([], rest.tail)
      else
        match cutQuoted rest with
        | (front, back) => (s :: front, back)

theorem cutQuoted_length (s : List Scalar) : (cutQuoted s).2.length ≤ s.length := by
  fun_induction cutQuoted s <;> grind -linarith

/-- The characters of a quoted text, each for itself. -/
def quotedChars : List Scalar → List (Except Fault Token)
  | [] => []
  | s :: rest =>
      if s.isStray then [refuseAll .invalidUtf8 (s :: rest)]
      else .ok (.char s.code) :: quotedChars rest

/-! ### Tokens -/

/-- One token and the rest, as a list of tokens and the rest. Nothing is read after a fault. -/
def alone (taken : Except Fault (Token × List Scalar)) :
    List (Except Fault Token) × List Scalar :=
  match taken with
  | .error fault => ([.error fault], [])
  | .ok (token, rest) => ([.ok token], rest)

theorem alone_length (taken : Except Fault (Token × List Scalar)) (n : Nat)
    (h : ∀ x rest, taken = .ok (x, rest) → rest.length ≤ n) : (alone taken).2.length ≤ n := by
  fun_cases alone taken <;> grind -linarith

/-- A character that an escape stands for, as a token. -/
def escapedChar (taken : Except Fault (Nat × List Scalar)) :
    List (Except Fault Token) × List Scalar :=
  match taken with
  | .error fault => ([.error fault], [])
  | .ok (code, rest) => ([.ok (.char code)], rest)

theorem escapedChar_length (taken : Except Fault (Nat × List Scalar)) (n : Nat)
    (h : ∀ x rest, taken = .ok (x, rest) → rest.length ≤ n) :
    (escapedChar taken).2.length ≤ n := by
  fun_cases escapedChar taken <;> grind -linarith

/-- A class that stands by itself, as a token. -/
def classAlone (taken : Except Fault (SetItem × List Scalar)) :
    List (Except Fault Token) × List Scalar :=
  match taken with
  | .error fault => ([.error fault], [])
  | .ok (item, rest) => ([.ok (.set [item] false)], rest)

theorem classAlone_length (taken : Except Fault (SetItem × List Scalar)) (n : Nat)
    (h : ∀ x rest, taken = .ok (x, rest) → rest.length ≤ n) :
    (classAlone taken).2.length ≤ n := by
  fun_cases classAlone taken <;> grind -linarith

/-- The tokens that a backslash starts. -/
def backslash (slash : Scalar) (s : List Scalar) : List (Except Fault Token) × List Scalar :=
  match s with
  | [] => escapedChar (escape slash s)
  | c :: rest =>
      match c.char with
      | 'A' => ([.ok (.test .beginText)], rest)
      | 'b' => ([.ok (.test .boundary)], rest)
      | 'B' => ([.ok (.test .noBoundary)], rest)
      | 'z' => ([.ok (.test .endText)], rest)
      | 'Q' =>
          match cutQuoted rest with
          | (front, back) => (.ok (.change []) :: quotedChars front, back)
      | 'p' => classAlone (property [slash, c] false rest)
      | 'P' => classAlone (property [slash, c] true rest)
      | ch =>
          match letterClass? ch with
          | some item => ([.ok (.set [item] false)], rest)
          | none => escapedChar (escape slash s)

theorem backslash_length (slash : Scalar) (s : List Scalar) :
    (backslash slash s).2.length ≤ s.length := by
  have escaped : (escapedChar (escape slash s)).2.length ≤ s.length :=
    escapedChar_length _ _ fun _ _ h => Nat.le_of_lt (escape_length slash s h)
  have property_le (mark : List Scalar) (negated : Bool) (t : List Scalar) :
      (classAlone (property mark negated t)).2.length ≤ t.length :=
    classAlone_length _ _ fun _ _ h => property_length mark negated t h
  fun_cases backslash slash s <;> grind -linarith [cutQuoted_length]

/-- The tokens that the character `c` starts, and the rest. -/
def next (c : Scalar) (s : List Scalar) : List (Except Fault Token) × List Scalar :=
  match c.char with
  | '(' => alone (group c s)
  | '|' => ([.ok .bar], s)
  | ')' => ([.ok .close], s)
  | '^' => ([.ok .caret], s)
  | '$' => ([.ok .dollar], s)
  | '.' => ([.ok .dot], s)
  | '[' => alone (bracketClass c s)
  | '*' => alone (.ok (repetition .star [c] s))
  | '+' => alone (.ok (repetition .plus [c] s))
  | '?' => alone (.ok (repetition .opt [c] s))
  | '{' => alone (braces c s)
  | '\\' => backslash c s
  | _ =>
      if c.isStray then ([refuseAll .invalidUtf8 (c :: s)], [])
      else ([.ok (.char c.code)], s)

/-- Nothing is read twice: the rest is part of what was there. -/
theorem next_length (c : Scalar) (s : List Scalar) : (next c s).2.length ≤ s.length := by
  fun_cases next c s
  case case1 => exact alone_length _ _ fun _ _ h => group_length c s h
  case case7 => exact alone_length _ _ fun _ _ h => bracketClass_length c s h
  case case11 => exact alone_length _ _ fun _ _ h => braces_length c s h
  case case12 => exact backslash_length c s
  all_goals grind -linarith [alone, repetition_length]

/-- The tokens of a pattern. -/
def scan (s : List Scalar) : List (Except Fault Token) :=
  match s with
  | [] => []
  | c :: rest =>
      let step := next c rest
      step.1 ++ scan step.2
termination_by s.length
decreasing_by exact Nat.lt_succ_of_le (next_length c rest)

end Token

end Pattern

end Rulebook

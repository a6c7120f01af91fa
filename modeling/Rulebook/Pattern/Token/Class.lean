import Rulebook.Pattern.Token.Escape
import Rulebook.Text.Category
import Rulebook.Text.Script

/-!
# Classes

A set of characters as a pattern writes it: a class with a letter of its own such as `\d`, the
characters of a property such as `\pL`, and the members between two brackets.
-/

namespace Rulebook

namespace Pattern

namespace Token

/-- The decimal digits of ASCII. -/
def digitSet : CharSet := ⟨[(0x30, 0x39)]⟩

/-- The blanks of ASCII without the vertical tab. -/
def blankSet : CharSet := ⟨[(0x09, 0x0A), (0x0C, 0x0D), (0x20, 0x20)]⟩

/-- The letters and digits of ASCII and the underscore. -/
def wordSet : CharSet := ⟨[(0x30, 0x39), (0x41, 0x5A), (0x5F, 0x5F), (0x61, 0x7A)]⟩

/-- The classes with a letter of their own. -/
def letterClass? (c : Char) : Option SetItem :=
  match c with
  | 'd' => some ⟨digitSet, false⟩
  | 'D' => some ⟨digitSet, true⟩
  | 's' => some ⟨blankSet, false⟩
  | 'S' => some ⟨blankSet, true⟩
  | 'w' => some ⟨wordSet, false⟩
  | 'W' => some ⟨wordSet, true⟩
  | _ => none

/-- The classes with a name between `[:` and `:]`. -/
def namedClasses : List (Bytes × CharSet) :=
  [("alnum", ⟨[(0x30, 0x39), (0x41, 0x5A), (0x61, 0x7A)]⟩),
   ("alpha", ⟨[(0x41, 0x5A), (0x61, 0x7A)]⟩),
   ("ascii", ⟨[(0x00, 0x7F)]⟩),
   ("blank", ⟨[(0x09, 0x09), (0x20, 0x20)]⟩),
   ("cntrl", ⟨[(0x00, 0x1F), (0x7F, 0x7F)]⟩),
   ("digit", digitSet),
   ("graph", ⟨[(0x21, 0x7E)]⟩),
   ("lower", ⟨[(0x61, 0x7A)]⟩),
   ("print", ⟨[(0x20, 0x7E)]⟩),
   ("punct", ⟨[(0x21, 0x2F), (0x3A, 0x40), (0x5B, 0x60), (0x7B, 0x7E)]⟩),
   ("space", ⟨[(0x09, 0x0D), (0x20, 0x20)]⟩),
   ("upper", ⟨[(0x41, 0x5A)]⟩),
   ("word", wordSet),
   ("xdigit", ⟨[(0x30, 0x39), (0x41, 0x46), (0x61, 0x66)]⟩)]

/-- The class of a name between `[:` and `:]`, which a caret turns round. -/
def namedClass? : Bytes → Option SetItem
  | 94 :: name => (namedClasses.lookup name).map (⟨·, true⟩)
  | name => (namedClasses.lookup name).map (⟨·, false⟩)

/-- A name of a property without what does not count in it: hyphens, underscores and blanks, and
    the case of letters. -/
def looseName (name : Bytes) : Bytes :=
  (name.filter fun b => !(b == 32 || b == 45 || b == 95)).map fun b =>
    if 65 ≤ b && b ≤ 90 then b + 32 else b

/-- The properties that are neither a category nor a script. -/
def broadProperties : List (String × CharSet) :=
  [("Any", .all),
   ("ASCII", ⟨[(0x00, 0x7F)]⟩),
   ("Assigned", Category.unassigned.complement)]

/-- The characters of a general category, of a script, or of a broader property. -/
def property? (name : Bytes) : Option CharSet :=
  let is (known : String) : Bool := looseName (Bytes.ofString known) == looseName name
  match broadProperties.find? (is ·.1), Category.all.find? (·.1.any is) with
  | some (_, members), _ => some members
  | none, some (_, members) => some members
  | none, none => (Script.tables.find? (is ·.1)).map (.ofText ·.2)

/-- The class of a property, which a caret before the name and a capital `P` turn round. -/
def propertyClass? (negated : Bool) : Bytes → Option SetItem
  | 94 :: name => (property? name).map (⟨·, !negated⟩)
  | name => (property? name).map (⟨·, negated⟩)

/-- The text up to a character and the text after it. -/
def cutAt? (c : Char) : List Scalar → Option (List Scalar × List Scalar)
  | [] => none
  | s :: rest =>
      if s.char == c then some ([], rest)
      else
        match cutAt? c rest with
        | none => none
        | some (front, back) => some (s :: front, back)

theorem cutAt?_length (c : Char) (s : List Scalar) {front back : List Scalar}
    (h : cutAt? c s = some (front, back)) : back.length < s.length := by
  fun_induction cutAt? c s generalizing front back <;> grind -linarith

/-- What follows `\p` or `\P`: one letter, or a name in braces. `mark` is the backslash and the
    letter. -/
def property (mark : List Scalar) (negated : Bool) (s : List Scalar) :
    Except Fault (SetItem × List Scalar) :=
  let lookup (name text rest : List Scalar) : Except Fault (SetItem × List Scalar) :=
    match propertyClass? negated (Bytes.ofScalars name) with
    | some item => .ok (item, rest)
    | none => refuseAll .invalidCharRange (mark ++ text)
  match s with
  | [] => lookup [] [] []
  | c :: rest =>
      if c.isStray then refuseAll .invalidUtf8 (c :: rest)
      else if c.char == '{' then
        match cutAt? '}' rest with
        | none =>
            match checkUtf8 s with
            | .error fault => .error fault
            | .ok () => refuseAll .invalidCharRange (mark ++ s)
        | some (name, rest') =>
            match checkUtf8 name with
            | .error fault => .error fault
            | .ok () => lookup name (s.take (name.length + 2)) rest'
      else lookup [c] [c] rest

theorem property_length (mark : List Scalar) (negated : Bool) (s : List Scalar) {x : SetItem}
    {rest : List Scalar} (h : property mark negated s = .ok (x, rest)) :
    rest.length ≤ s.length := by
  revert h
  fun_cases property mark negated s <;> grind -linarith [refuse, refuseAll, → cutAt?_length]

/-- The text up to `:]` and the text after it. -/
def cutNamed? : List Scalar → Option (List Scalar × List Scalar)
  | [] => none
  | s :: rest =>
      if s.char == ':' && (rest.head?.map Scalar.char) == some ']' then some ([], rest.tail)
      else
        match cutNamed? rest with
        | none => none
        | some (front, back) => some (s :: front, back)

theorem cutNamed?_length (s : List Scalar) {front back : List Scalar}
    (h : cutNamed? s = some (front, back)) : back.length < s.length := by
  fun_induction cutNamed? s generalizing front back <;> grind -linarith

/-- One character of a class, plain or escaped. `whole` starts at the bracket. -/
def classChar (whole : List Scalar) : List Scalar → Except Fault (Nat × List Scalar)
  | [] => refuseAll .missingBracket whole
  | c :: rest =>
      if c.char == '\\' then escape c rest
      else if c.isStray then refuseAll .invalidUtf8 (c :: rest)
      else .ok (c.code, rest)

theorem classChar_length (whole s : List Scalar) {x : Nat} {rest : List Scalar}
    (h : classChar whole s = .ok (x, rest)) : rest.length < s.length := by
  revert h
  fun_cases classChar whole s <;> grind -linarith [refuse, refuseAll, → escape_length]

/-- A character of a class or a range between two. A hyphen before the closing bracket stands for
    itself. -/
def classRange (whole s : List Scalar) : Except Fault (SetItem × List Scalar) :=
  match classChar whole s with
  | .error fault => .error fault
  | .ok (low, rest) =>
      match rest with
      | h :: e :: rest' =>
          if h.char == '-' && e.char != ']' then
            match classChar whole (e :: rest') with
            | .error fault => .error fault
            | .ok (high, rest') =>
                if high < low then refuse .invalidCharRange s rest'
                else .ok (⟨⟨[(low, high)]⟩, false⟩, rest')
          else .ok (⟨.single low, false⟩, rest)
      | _ => .ok (⟨.single low, false⟩, rest)

theorem classRange_length (whole s : List Scalar) {x : SetItem} {rest : List Scalar}
    (h : classRange whole s = .ok (x, rest)) : rest.length < s.length := by
  revert h
  fun_cases classRange whole s <;> grind -linarith [refuse, refuseAll, → classChar_length]

/-- One member of a class: a named class, a property, a class with a letter, or a range. -/
def classItem (whole s : List Scalar) : Except Fault (SetItem × List Scalar) :=
  match s with
  | o :: c :: rest =>
      match o.char with
      | '[' =>
          if c.char == ':' && !rest.isEmpty then
            match cutNamed? rest with
            | some (name, rest') =>
                match namedClass? (Bytes.ofScalars name) with
                | some item => .ok (item, rest')
                | none => refuse .invalidCharRange s rest'
            | none => classRange whole s
          else classRange whole s
      | '\\' =>
          if c.char == 'p' || c.char == 'P' then property [o, c] (c.char == 'P') rest
          else
            match letterClass? c.char with
            | some item => .ok (item, rest)
            | none => classRange whole s
      | _ => classRange whole s
  | _ => classRange whole s

/-- A member of a class takes at least one character. -/
theorem classItem_length (whole s : List Scalar) {x : SetItem} {rest : List Scalar}
    (h : classItem whole s = .ok (x, rest)) : rest.length < s.length := by
  revert h
  fun_cases classItem whole s <;>
    grind -linarith [refuse, refuseAll, → classRange_length, → cutNamed?_length, → property_length]

/-- The members of a class up to its closing bracket. A bracket right at the start stands for
    itself. -/
def classItems (whole : List Scalar) (first : Bool) (s : List Scalar) :
    Except Fault (List SetItem × List Scalar) :=
  if !first && (s.head?.map Scalar.char) == some ']' then .ok ([], s.tail)
  else
    match h : classItem whole s with
    | .error fault => .error fault
    | .ok (item, rest) =>
        have := classItem_length whole s h
        match classItems whole false rest with
        | .error fault => .error fault
        | .ok (items, rest') => .ok (item :: items, rest')
termination_by s.length

theorem classItems_length (whole : List Scalar) (first : Bool) (s : List Scalar)
    {x : List SetItem} {rest : List Scalar} (h : classItems whole first s = .ok (x, rest)) :
    rest.length ≤ s.length := by
  fun_induction classItems whole first s generalizing x rest <;>
    grind -linarith [→ classItem_length]

/-- A class, from the character after its opening bracket on. -/
def bracketClass (bracket : Scalar) (s : List Scalar) : Except Fault (Token × List Scalar) :=
  let negated := (s.head?.map Scalar.char) == some '^'
  match classItems (bracket :: s) true (if negated then s.tail else s) with
  | .error fault => .error fault
  | .ok (items, rest) => .ok (.set items negated, rest)

theorem bracketClass_length (bracket : Scalar) (s : List Scalar) {x : Token}
    {rest : List Scalar} (h : bracketClass bracket s = .ok (x, rest)) :
    rest.length ≤ s.length := by
  revert h
  fun_cases bracketClass bracket s <;> grind -linarith [→ classItems_length]

end Token

end Pattern

end Rulebook

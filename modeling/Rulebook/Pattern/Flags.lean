/-!
# Settings

The settings that a pattern can switch on and off while it is read.
-/

namespace Rulebook

namespace Pattern

/-- The settings that a pattern can switch on and off. -/
inductive Flag where
  /-- Letters match without regard to case. -/
  | fold
  /-- `^` and `$` match at every line. -/
  | lines
  /-- `.` matches a line break too. -/
  | dotAll
  /-- Repetitions are lazy, and greedy if marked. -/
  | lazy
  deriving DecidableEq, Repr

/-- The settings in force at a place in a pattern. -/
structure Flags where
  /-- Letters match without regard to case. -/
  fold : Bool := false
  /-- `^` and `$` match at every line. -/
  lines : Bool := false
  /-- `.` matches a line break too. -/
  dotAll : Bool := false
  /-- Repetitions are lazy, and greedy if marked. -/
  lazy : Bool := false
  deriving DecidableEq, Repr

namespace Flags

/-- Changes one setting. -/
def put (flags : Flags) : Flag × Bool → Flags
  | (.fold, on) => { flags with fold := on }
  | (.lines, on) => { flags with lines := on }
  | (.dotAll, on) => { flags with dotAll := on }
  | (.lazy, on) => { flags with lazy := on }

/-- Changes several settings one after another. -/
def apply (flags : Flags) (changes : List (Flag × Bool)) : Flags := changes.foldl put flags

end Flags

end Pattern

end Rulebook

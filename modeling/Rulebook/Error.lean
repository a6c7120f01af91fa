import Rulebook.Kind
import Rulebook.Pattern.Fault
import Rulebook.Position

/-!
# Errors

What can go wrong, as causes. `Error.message` is the one place where they become words.
-/

namespace Rulebook

/-- Why entries cannot be combined. -/
inductive Malformation where
  /-- The kind has no entries. -/
  | notCombinator
  /-- There are no entries. -/
  | noEntries
  /-- An entry is missing. -/
  | missingEntry
  /-- An entry has no rule. -/
  | missingRule
  /-- An entry has a name that is not valid. -/
  | invalidName (name : Bytes)
  /-- Another reason, in words. -/
  | other (reason : Bytes)
  deriving DecidableEq, Repr

/-- The reason in words. -/
def Malformation.words : Malformation → Bytes
  | notCombinator => "not a combinator"
  | noEntries => "at least one entry is required"
  | missingEntry => "nil entry"
  | missingRule => "entry without a rule"
  | invalidName name => "invalid entry name " ++ name
  | other reason => reason

/-- Why a rule cannot be registered. -/
inductive Refusal where
  /-- The name is not valid. -/
  | invalidName
  /-- There is no rule. -/
  | missingRule
  /-- Another reason, in words. -/
  | other (reason : Bytes)
  deriving DecidableEq, Repr

/-- The reason in words. -/
def Refusal.words : Refusal → Bytes
  | invalidName => "invalid rule name"
  | missingRule => "nil rule"
  | other reason => reason

/-- What a definition holds that cannot be compiled. -/
inductive Misreading where
  /-- A token that is neither a group nor a literal. -/
  | token (text : Bytes)
  /-- A literal of no known form. -/
  | literal (text : Bytes)
  /-- A suffix that does not stand for a repetition. -/
  | suffix (text : Bytes)
  /-- A quoted text that cannot be read. -/
  | quotedText (text : Bytes)
  /-- A group without alternatives. -/
  | emptyGroup
  deriving DecidableEq, Repr

/-- The words for what cannot be compiled. -/
def Misreading.words : Misreading → Bytes
  | token text => "unrecognised token " ++ text.quote
  | literal text => "unrecognised literal " ++ text.quote
  | suffix text => "unknown suffix " ++ text.quote
  | quotedText text => "invalid quoted text " ++ text ++ ": invalid syntax"
  | emptyGroup => "empty group"

/-- Something that went wrong. -/
inductive Error where
  /-- A text without a further cause. -/
  | plain (text : Bytes)
  /-- Entries that cannot be combined under the kind with the given number. -/
  | malformed (kind : Int) (reason : Malformation)
  /-- A name under which no rule is registered. -/
  | unknownRule (name : Bytes)
  /-- A rule that cannot be registered. -/
  | registration (name : Bytes) (reason : Refusal)
  /-- A pattern that the matcher refuses. -/
  | rejected (pattern : Bytes) (cause : Error)
  /-- A fault of a pattern. -/
  | fault (fault : Pattern.Fault)
  /-- A name that two groups of a pattern bear. -/
  | duplicateCapture (name : Bytes)
  /-- A line of a source that cannot be compiled. Without a cause it is no definition at all. -/
  | compile (position : Position) (text : Bytes) (cause : Option Error)
  /-- A part of a definition that cannot be compiled. -/
  | misread (what : Misreading)
  /-- A compilation over no registry. -/
  | missingBase
  /-- An error with words before it that tell where it arose. -/
  | within (label : Bytes) (cause : Error)
  deriving Repr

namespace Error

mutual

/-- The error in words. -/
def message : Error → Bytes
  | plain text => text
  | malformed kind reason => "malformed " ++ Kind.nameOfCode kind ++ " rule: " ++ reason.words
  | unknownRule name => "unknown rule " ++ name.quote
  | registration name reason => "cannot register " ++ name.quote ++ ": " ++ reason.words
  | rejected _ cause => "pattern rejected: " ++ cause.message
  | fault f => f.message
  | duplicateCapture name => "duplicate capture name " ++ name.quote
  | compile position text cause => position.describe (unplaced text cause)
  | misread what => what.words
  | missingBase => "dsl: nil base registry"
  | within label cause => label ++ ": " ++ cause.message

/-- What is wrong with a line of a source, without its position. -/
def unplaced (text : Bytes) : Option Error → Bytes
  | none => "invalid rule definition " ++ text.quote
  | some cause => text.quote ++ ": " ++ cause.message

end

/-- A line of a source that cannot be compiled. -/
structure Diagnosis where
  position : Position
  text : Bytes
  cause : Option Error

/-- The error of a line that cannot be compiled. -/
def Diagnosis.toError (d : Diagnosis) : Error := .compile d.position d.text d.cause

/-- The error in words, without the position. -/
def Diagnosis.words (d : Diagnosis) : Bytes := unplaced d.text d.cause

mutual

/-- An error and the errors that caused it, the outermost first. -/
def chain : Error → List Error
  | rejected pattern cause => rejected pattern cause :: cause.chain
  | compile position text cause => compile position text cause :: chainOf cause
  | within label cause => within label cause :: cause.chain
  | e => [e]

/-- The chain of a cause, if there is one. -/
def chainOf : Option Error → List Error
  | none => []
  | some e => e.chain

end

/-- The outermost line that could not be compiled. -/
def diagnosis? (e : Error) : Option Diagnosis :=
  e.chain.findSome? fun
    | compile position text cause => some ⟨position, text, cause⟩
    | _ => none

/-- The outermost pattern that was refused. -/
def rejectedPattern? (e : Error) : Option Bytes :=
  e.chain.findSome? fun
    | rejected pattern _ => some pattern
    | _ => none

end Error

end Rulebook

import Rulebook.Error

/-!
# Error reports

How the command line tells of an error: what kind of report it is, the position if the error has
one, the message, and below it the text that the error is about. On a terminal the parts are styled.
-/

namespace Rulebook

namespace Report

/-- A way to set off a part of a report: the codes that start it and those that end it. -/
structure Style where
  on : List Nat
  off : List Nat

/-- Bold red. -/
def Style.error : Style := ⟨[31, 1], [0, 22]⟩

/-- Bold bright yellow. -/
def Style.warning : Style := ⟨[93, 1], [0, 22]⟩

/-- Bold cyan. -/
def Style.position : Style := ⟨[36, 1], [0, 22]⟩

/-- White. -/
def Style.text : Style := ⟨[37], [0]⟩

/-- The escape sequence for some codes. -/
def sequence (codes : List Nat) : Bytes :=
  "\x1b[" ++ Bytes.join ";" (codes.map Bytes.decimal) ++ "m"

/-- A text in a style, if colours are on. -/
def Style.apply (s : Style) (color : Bool) (text : Bytes) : Bytes :=
  if color then sequence s.on ++ text ++ sequence s.off else text

/-- A report under a label. -/
def labelled (style : Style) (label : Bytes) (color : Bool) (e : Error) : Bytes :=
  match e.diagnosis? with
  | none => style.apply color label ++ ": " ++ e.message ++ "\n"
  | some d =>
      let head : Bytes :=
        style.apply color label ++ ": " ++ Style.position.apply color d.position.display ++ ": " ++
          d.words ++ "\n"
      let quoted : Bytes :=
        if d.text.isEmpty then [] else "  " ++ Style.text.apply color d.text ++ "\n"
      head ++ quoted

/-- The report of an error that ended the work. -/
def error (color : Bool) (e : Error) : Bytes := labelled .error "error" color e

/-- The report of a definition that was left out. -/
def skipped (color : Bool) (d : Error.Diagnosis) : Bytes :=
  labelled .warning "skipped" color d.toError

end Report

end Rulebook

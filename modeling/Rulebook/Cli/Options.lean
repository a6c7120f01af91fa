import Rulebook.Text.Quoted

/-!
# Commands and flags

What the command line offers: three commands, the flags that all of them share, and the flags and
arguments of each.
-/

namespace Rulebook

namespace Cli

/-- The name of the program. -/
def programName : Bytes := "runtax"

/-- What the program does. -/
def programHelp : Bytes := "Compile rule definitions and match them against text."

/-- The version of the program. -/
def version : Bytes := "dev"

/-- A flag. -/
inductive Flag where
  | help
  | version
  | debug
  | skipInvalid
  | basic
  | start
  | format
  deriving DecidableEq, Repr

/-- The forms that trees can be printed in. -/
inductive Format where
  | text
  | yaml
  | repr
  deriving DecidableEq, Repr

namespace Format

/-- All forms. -/
def all : List Format := [text, yaml, repr]

/-- The name of a form. -/
def name : Format → Bytes
  | text => "text"
  | yaml => "yaml"
  | repr => "repr"

/-- The form with a name. -/
def ofName? (s : Bytes) : Option Format := all.find? (·.name == s)

end Format

namespace Flag

/-- The name of a flag. -/
def name : Flag → Bytes
  | help => "help"
  | version => "version"
  | debug => "debug"
  | skipInvalid => "skip-invalid"
  | basic => "basic"
  | start => "start"
  | format => "format"

/-- A flag as it is given. -/
def long (f : Flag) : Bytes := "--" ++ f.name

/-- The letter of a flag, as it is given. -/
def short? : Flag → Option Bytes
  | help => some "-h"
  | _ => none

/-- The spellings of a flag. -/
def spellings (f : Flag) : List Bytes := f.long :: f.short?.toList

/-- How the value of a flag is shown, if it takes one. -/
def placeholder? : Flag → Option Bytes
  | start => some "STRING"
  | format => some Format.text.name.quote
  | _ => none

/-- What a flag does. -/
def about : Flag → Bytes
  | help => "Show context-sensitive help."
  | version => "Show version."
  | debug => "Log compilation in detail."
  | skipInvalid => "Skip definitions that fail to compile instead of stopping."
  | basic => "Allow definitions to refer to the basic rules (letter, digit, word, ...)."
  | start => "Verify that every rule is reachable from this one."
  | format => "Output format (" ++ Bytes.join "," (Format.all.map Format.name) ++ ")."

/-- The flags of all commands. -/
def global : List Flag := [help, version, debug, skipInvalid, basic]

end Flag

/-- An argument of a command. -/
inductive Argument where
  /-- The file with the definitions. -/
  | grammar
  /-- The rule to match. -/
  | rule
  /-- The files to match it against. -/
  | input
  deriving DecidableEq, Repr

namespace Argument

/-- An argument as it is shown. -/
def display : Argument → Bytes
  | grammar => "<grammar>"
  | rule => "<rule>"
  | input => "[<input> ...]"

/-- What an argument is. -/
def about : Argument → Bytes
  | grammar => "Rule definitions."
  | rule => "Rule to match."
  | input => "Files to match (stdin if omitted)."

/-- True if the argument cannot be left out. -/
def isRequired : Argument → Bool
  | input => false
  | _ => true

end Argument

/-- A command. -/
inductive Command where
  | check
  | ebnf
  | parse
  deriving DecidableEq, Repr

namespace Command

/-- All commands. -/
def all : List Command := [check, ebnf, parse]

/-- The name of a command. -/
def name : Command → Bytes
  | check => "check"
  | ebnf => "ebnf"
  | parse => "parse"

/-- What a command does. -/
def about : Command → Bytes
  | check => "Compile a grammar and list its rules."
  | ebnf => "Print a grammar as EBNF."
  | parse => "Match a rule of a grammar against input and print the parse trees."

/-- The flags of one command. -/
def flags : Command → List Flag
  | check => [.start]
  | ebnf => []
  | parse => [.format]

/-- The arguments of a command, in order. -/
def arguments : Command → List Argument
  | check => [.grammar]
  | ebnf => [.grammar]
  | parse => [.grammar, .rule, .input]

/-- A command with its arguments, as it is shown. -/
def summary (c : Command) : Bytes :=
  Bytes.join " " (c.name :: c.arguments.map Argument.display) ++ " [flags]"

end Command

end Cli

end Rulebook

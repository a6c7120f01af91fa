import Rulebook.Cli.Files
import Rulebook.Cli.Options
import Rulebook.Text.EditDistance
import Rulebook.Text.Lowercase

/-!
# Reading arguments

Arguments are read from left to right. The first that is not a flag names the command, the others
are the arguments of the command. Flags may stand anywhere after what they belong to. What a file
is named for must be there.
-/

namespace Rulebook

namespace Cli

/-- Why arguments are refused. -/
inductive Misuse where
  /-- An argument that nothing asks for, and what might have been meant. -/
  | unexpected (text : Bytes) (known : List Bytes)
  /-- A flag that does not exist, and what might have been meant. -/
  | unknownFlag (text : Bytes) (known : List Bytes)
  /-- A switch with a value that is neither true nor false. -/
  | notBoolean (flag : Flag) (text : Bytes)
  /-- A flag with no value after it, and what stands there if anything does. -/
  | noValue (flag : Flag) (next : Option Bytes)
  /-- A form that does not exist. -/
  | unknownFormat (text : Bytes)
  /-- A file that cannot be used for an argument. -/
  | file (argument : Argument) (fault : FileFault)
  /-- There is no command. -/
  | noCommand
  /-- Arguments that cannot be left out. -/
  | missing (arguments : List Argument)

namespace Misuse

/-- True if one text was perhaps meant by another: it goes on from it, or at most two characters
    differ. -/
def isLike (known text : Bytes) : Bool := text.isPrefixOf known || known.distance text ≤ 2

/-- What might have been meant. -/
def suggestion (text : Bytes) (known : List Bytes) : Bytes :=
  match (known.filter fun k => isLike k text).map Bytes.quote with
  | [] => []
  | [k] => ", did you mean " ++ k ++ "?"
  | ks => ", did you mean one of " ++ Bytes.join ", " ks ++ "?"

/-- What stands where the value of a flag should. -/
def describeNext (flag : Flag) : Option Bytes → Bytes
  | none => "\"EOL\" (<EOL>)"
  | some next =>
      let kind : Bytes := if ("--" : Bytes).isPrefixOf next then "long flag" else "short flag"
      next.quote ++ " (" ++ kind ++ "); perhaps try " ++ flag.long ++ "=" ++ next.quote ++ "?"

/-- The refusal in words. -/
def message : Misuse → Bytes
  | unexpected text known => "unexpected argument " ++ text ++ suggestion text known
  | unknownFlag text known => "unknown flag " ++ text ++ suggestion text known
  | notBoolean flag text =>
      flag.long ++ ": bool value must be true, 1, yes, false, 0 or no but got " ++ text.quote
  | noValue flag next => flag.long ++ ": expected string value but got " ++ describeNext flag next
  | unknownFormat text =>
      Flag.format.long ++ " must be one of " ++
        Bytes.join "," (Format.all.map fun f => f.name.quote) ++ " but got " ++ text.quote
  | file argument fault => argument.display ++ ": " ++ fault.message
  | noCommand =>
      "expected one of " ++ Bytes.join ", " (Command.all.map fun c => c.name.quote)
  | missing arguments => "expected " ++ (Bytes.join " " (arguments.map Argument.display)).quote

end Misuse

/-- What the arguments say. -/
structure Parsed where
  command : Option Command := none
  /-- The flags that end the work at once, in order. -/
  requests : List Flag := []
  skipInvalid : Bool := false
  basic : Bool := false
  start : Bytes := []
  format : Bytes := Format.text.name
  grammar : Option Bytes := none
  rule : Option Bytes := none
  inputs : List Bytes := []
  /-- The arguments of the command that are still to come. -/
  awaited : List Argument := []

namespace Parsed

/-- The flags that are known so far. -/
def flags (p : Parsed) : List Flag := Flag.global ++ (p.command.map Command.flags).getD []

/-- Sets a switch. To ask for help or the version counts whatever the value. -/
def setSwitch (p : Parsed) (flag : Flag) (value : Bool) : Parsed :=
  match flag with
  | .skipInvalid => { p with skipInvalid := value }
  | .basic => { p with basic := value }
  | .help => { p with requests := p.requests ++ [.help] }
  | .version => { p with requests := p.requests ++ [.version] }
  | _ => p

/-- Sets the value of a flag that takes one. -/
def setValue (p : Parsed) (flag : Flag) (value : Bytes) : Parsed :=
  match flag with
  | .start => { p with start := value }
  | .format => { p with format := value }
  | _ => p

end Parsed

/-- Arguments that were refused, and the command that was known by then. -/
structure Refused where
  command : Option Command
  misuse : Misuse

/-- Refuses arguments. -/
def Parsed.refuse {α : Type} (p : Parsed) (misuse : Misuse) : Except Refused α :=
  .error ⟨p.command, misuse⟩

/-- A value as text: every byte that is not UTF-8 becomes a replacement character. -/
def valueText (s : Bytes) : Bytes := s.scalars.flatMap fun c => Bytes.ofChar c.char

/-- True of what can be a value: a hyphen alone, or something that does not start with one. -/
def isValue (s : Bytes) : Bool := s == "-" || s.head? != some 45

/-- The flag with a spelling. -/
def Parsed.flag? (p : Parsed) (spelling : Bytes) : Option Flag :=
  p.flags.find? (·.spellings.contains spelling)

/-- The truth value that a text names. -/
def readBoolean? (s : Bytes) : Option Bool :=
  if s == "true" || s == "1" || s == "yes" then some true
  else if s == "false" || s == "0" || s == "no" then some false
  else none

/-- The refusal of a flag that does not exist. -/
def Parsed.unknownFlag {α : Type} (p : Parsed) (spelling : Bytes) : Except Refused α :=
  p.refuse (.unknownFlag spelling (p.flags.flatMap Flag.spellings))

/-- Reads a switch with the value that is attached to it, if one is. -/
def readSwitch (p : Parsed) (flag : Flag) : Option Bytes → Except Refused Parsed
  | none => .ok (p.setSwitch flag true)
  | some value =>
      match readBoolean? value.lowercase with
      | some b => .ok (p.setSwitch flag b)
      | none => p.refuse (.notBoolean flag value.lowercase)

/-- Reads letters after one hyphen, each of which is a switch. -/
def readLetters (p : Parsed) : Bytes → Except Refused Parsed
  | [] => .ok p
  | b :: rest =>
      match p.flag? [45, b] with
      | none => p.unknownFlag [45, b]
      | some flag => readLetters (p.setSwitch flag true) rest

/-- The path of a file that must be there. A hyphen stands for itself. -/
def readFile (w : Workplace) (p : Parsed) (argument : Argument) (value : Bytes) :
    Except Refused Bytes :=
  let path := valueText value
  if path == "-" then .ok path
  else
    match w.read "stat" (w.resolve path) with
    | .error fault => p.refuse (.file argument fault)
    | .ok _ => .ok (w.resolve path)

/-- The paths of files that must be there. -/
def readFiles (w : Workplace) (p : Parsed) (argument : Argument) :
    List Bytes → Except Refused (List Bytes)
  | [] => .ok []
  | value :: rest =>
      match readFile w p argument value with
      | .error r => .error r
      | .ok path =>
          match readFiles w p argument rest with
          | .error r => .error r
          | .ok paths => .ok (path :: paths)

/-- Reads an argument of the command, or the name of the command. With the last kind of argument
    come all values that follow. -/
def readPositional (w : Workplace) (p : Parsed) (value : Bytes) (following : List Bytes) :
    Except Refused Parsed :=
  match p.awaited with
  | .grammar :: awaited =>
      match readFile w p .grammar value with
      | .error r => .error r
      | .ok path => .ok { p with grammar := some path, awaited := awaited }
  | .rule :: awaited => .ok { p with rule := some (valueText value), awaited := awaited }
  | .input :: awaited =>
      match readFiles w p .input (value :: following) with
      | .error r => .error r
      | .ok paths => .ok { p with inputs := paths, awaited := awaited }
  | [] =>
      match p.command with
      | some _ => p.refuse (.unexpected value [])
      | none =>
          match Command.all.find? (·.name == value) with
          | some c => .ok { p with command := some c, awaited := c.arguments }
          | none => p.refuse (.unexpected value (Command.all.map Command.name))

/-- True if the next value takes all values that follow with it. -/
def Parsed.takesAll (p : Parsed) : Bool := p.awaited.head? == some .input

/-- Reads arguments none of which is a flag. -/
def readRest (w : Workplace) (p : Parsed) : List Bytes → Except Refused Parsed
  | [] => .ok p
  | value :: rest =>
      if p.takesAll then readPositional w p value rest
      else
        match readPositional w p value [] with
        | .error r => .error r
        | .ok p' => readRest w p' rest

/-- A flag and the value that is attached to it. -/
def splitFlag (s : Bytes) : Bytes × Option Bytes :=
  match s.dropWhile (· != 61) with
  | [] => (s, none)
  | _ :: value => (s.takeWhile (· != 61), some value)

/-- Reads arguments from left to right. -/
def read (w : Workplace) (p : Parsed) : List Bytes → Except Refused Parsed
  | [] => .ok p
  | arg :: rest =>
      if arg == "--" then readRest w p rest
      else if ("--" : Bytes).isPrefixOf arg then
        match splitFlag arg with
        | (spelling, attached) =>
            match p.flag? spelling with
            | none => p.unknownFlag spelling
            | some flag =>
                match flag.placeholder?, attached with
                | none, _ =>
                    match readSwitch p flag attached with
                    | .error r => .error r
                    | .ok p' => read w p' rest
                | some _, some value => read w (p.setValue flag (valueText value)) rest
                | some _, none =>
                    match _h : rest with
                    | [] => p.refuse (.noValue flag none)
                    | value :: rest' =>
                        if isValue value then read w (p.setValue flag (valueText value)) rest'
                        else p.refuse (.noValue flag (some value))
      else if !isValue arg then
        match readLetters p (arg.drop 1) with
        | .error r => .error r
        | .ok p' => read w p' rest
      else if p.takesAll then
        match readPositional w p arg (rest.takeWhile isValue) with
        | .error r => .error r
        | .ok p' => read w p' (rest.dropWhile isValue)
      else
        match readPositional w p arg [] with
        | .error r => .error r
        | .ok p' => read w p' rest
termination_by args => args.length
decreasing_by
  all_goals simp_wf
  all_goals first
    | omega
    | (have le := (List.dropWhile_sublist isValue (l := rest)).length_le; omega)

/-- What the program is asked to do. -/
inductive Task where
  /-- To show help on a command, or on the whole program. -/
  | help (command : Option Command)
  /-- To show its version. -/
  | version
  /-- To list the rules of a grammar and to verify it from a start, if that is not empty. -/
  | check (grammar start : Bytes)
  /-- To print a grammar. -/
  | ebnf (grammar : Bytes)
  /-- To match a rule against files, or against the standard input if there are none. -/
  | parse (grammar rule : Bytes) (inputs : List Bytes) (format : Format)

/-- What is asked for and how definitions are to be compiled. -/
structure Request where
  task : Task
  skipInvalid : Bool
  basic : Bool

/-- The task that arguments name. The form is looked at before what is missing. -/
def Parsed.task (p : Parsed) : Except Refused Task :=
  match Format.ofName? p.format with
  | none => p.refuse (.unknownFormat p.format)
  | some format =>
      match p.command with
      | none => p.refuse .noCommand
      | some c =>
          match c, p.grammar, p.rule with
          | .check, some grammar, _ => .ok (.check grammar p.start)
          | .ebnf, some grammar, _ => .ok (.ebnf grammar)
          | .parse, some grammar, some rule => .ok (.parse grammar rule p.inputs format)
          | _, _, _ => p.refuse (.missing (p.awaited.filter Argument.isRequired))

/-- What arguments ask for. A flag for help or the version counts before anything is missing. -/
def request (w : Workplace) (args : List Bytes) : Except Refused Request :=
  match read w {} args with
  | .error r => .error r
  | .ok p =>
      match p.requests with
      | .help :: _ => .ok ⟨.help p.command, p.skipInvalid, p.basic⟩
      | .version :: _ => .ok ⟨.version, p.skipInvalid, p.basic⟩
      | _ =>
          match p.task with
          | .error r => .error r
          | .ok task => .ok ⟨task, p.skipInvalid, p.basic⟩

end Cli

end Rulebook

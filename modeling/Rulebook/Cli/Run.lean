import Rulebook.Cli.Arguments
import Rulebook.Cli.Help
import Rulebook.Cli.Report
import Rulebook.Definition.Compile
import Rulebook.Ebnf.Verify
import Rulebook.Rule.Walk
import Rulebook.Tree.Literal
import Rulebook.Tree.Yaml

/-!
# Running commands

What a command writes and how it ends, given the files and the standard input.
-/

namespace Rulebook

namespace Cli

/-- The standard input: what can be read, and the fault that ends it, if one does. -/
structure Stdin where
  text : Bytes
  fault : Option Bytes

/-- What a run has written and how it ended. -/
structure Outcome where
  exit : Nat
  stdout : Bytes
  stderr : Bytes

/-- What a run needs to know beside its arguments. -/
structure Surroundings where
  workplace : Workplace
  stdin : Stdin
  /-- Whether reports are styled. -/
  color : Bool

/-- What was written to the standard output, and the error that ended the work, if one did. -/
structure Printed where
  text : Bytes
  error : Option Error

namespace Printed

/-- A text without an error. -/
def ok (text : Bytes) : Printed := ⟨text, none⟩

/-- An error without a text. -/
def failed (e : Error) : Printed := ⟨[], some e⟩

/-- One text after another, unless the first ended the work. -/
def andThen (first second : Printed) : Printed :=
  match first.error with
  | some _ => first
  | none => ⟨first.text ++ second.text, second.error⟩

end Printed

/-- A fault of a file as an error. -/
def liftFile {α : Type} : Except FileFault α → Except Error α
  | .error fault => .error (.plain fault.message)
  | .ok a => .ok a

/-- The error that a halt is reported as. -/
def haltError : Definition.Halt → Error
  | .error e => e
  | .range fault => .plain (fault.words?.getD "position out of range")
  | .endless => .plain "endless definition"

/-- The tag of the first rule that is defined. The rules that come with the library bear lesser
    ones. -/
def firstTag : Nat := Bootstrap.tag + 1

/-- How the definitions of a grammar are compiled. -/
def settings (r : Request) (path : Bytes) : Definition.Options where
  filename := path
  policy := if r.skipInvalid then .proceed else .stop
  base := if r.basic then some (some .basic) else none
  grammar := none
  tag := firstTag

/-- The reports of the definitions that were left out. -/
def warnings (r : Request) (color : Bool) (events : List Definition.Event) : Bytes :=
  if r.skipInvalid then
    events.flatMap fun
      | .failure d => Report.skipped color d
      | _ => []
  else []

/-- Compiles a grammar and tells the warnings. -/
def compileGrammar (s : Surroundings) (r : Request) (path : Bytes) :
    Bytes × Except Error Registry :=
  match s.workplace.read "open" path with
  | .error fault => ([], .error (.plain fault.message))
  | .ok source =>
      let step := Definition.compile (settings r path) source
      let result : Except Error Registry :=
        match step.result with
        | .error h => .error (haltError h)
        | .ok registry => .ok registry
      (warnings r s.color step.events, result)

/-- A rule in the list of a grammar. -/
def listing (e : Entry Rule) : Bytes :=
  let captures : Bytes :=
    if e.rule.captures.isEmpty then []
    else "  captures: " ++ Bytes.join ", " e.rule.captures ++ "\n"
  e.name ++ ": " ++ e.rule.namedPattern ++ "\n" ++ captures

/-- Verifies a grammar from a start. -/
def verify (r : Request) (registry : Registry) (start : Bytes) : Option Error :=
  if start.isEmpty then none
  else
    match registry.complaints start (if r.basic then Registry.basic.names else []) with
    | [] => none
    | complaints => some (.plain (Complaint.summary complaints))

/-- Trees in a form. -/
def printTrees (format : Format) (trees : List Tree) : Bytes :=
  match format with
  | .text => trees.flatMap Tree.print
  | .yaml => Tree.yamlDocument trees
  | .repr => Tree.literals trees

/-- The trees of a rule in a text. -/
def printMatches (m : Matcher) (format : Format) (text : Bytes) : Except Error Bytes :=
  match (m.trees text).mapM id with
  | .error e => .error e
  | .ok trees => .ok (printTrees format trees)

/-- The trees of a rule in a file. Among several files each is announced. -/
def printFile (s : Surroundings) (m : Matcher) (format : Format) (announce : Bool) (path : Bytes) :
    Printed :=
  match liftFile (s.workplace.read "open" path) with
  | .error e => .failed e
  | .ok text =>
      let head : Bytes := if announce then path ++ ":\n" else []
      match printMatches m format text with
      | .error e => ⟨head, some (.within path e)⟩
      | .ok printed => .ok (head ++ printed)

/-- The trees of a rule in files, up to the first error. -/
def printFiles (s : Surroundings) (m : Matcher) (format : Format) (announce : Bool) :
    List Bytes → Printed
  | [] => .ok []
  | path :: rest =>
      (printFile s m format announce path).andThen (printFiles s m format announce rest)

/-- The trees of a rule in the standard input. -/
def printStdin (s : Surroundings) (m : Matcher) (format : Format) : Printed :=
  match s.stdin.fault with
  | some fault => .failed (.plain fault)
  | none =>
      match printMatches m format s.stdin.text with
      | .error e => .failed e
      | .ok printed => .ok printed

/-- The trees of a rule in all inputs. -/
def parseInputs (s : Surroundings) (registry : Registry) (rule : Bytes) (inputs : List Bytes)
    (format : Format) : Printed :=
  match registry.get rule with
  | .error e => .failed e
  | .ok rule =>
      if inputs.isEmpty then printStdin s rule.matcher format
      else printFiles s rule.matcher format (1 < inputs.length && format == .text) inputs

/-- What is printed about a grammar. -/
def withGrammar (s : Surroundings) (r : Request) (path : Bytes) (print : Registry → Printed) :
    Outcome :=
  let (warned, compiled) := compileGrammar s r path
  let printed : Printed :=
    match compiled with
    | .error e => .failed e
    | .ok registry => print registry
  match printed.error with
  | none => ⟨0, printed.text, warned⟩
  | some e => ⟨1, printed.text, warned ++ Report.error s.color e⟩

/-- Does what was asked for. -/
def perform (s : Surroundings) (r : Request) : Outcome :=
  match r.task with
  | .help command => ⟨0, Help.page command, []⟩
  | .version => ⟨0, version ++ [10], []⟩
  | .check grammar start =>
      withGrammar s r grammar fun registry =>
        ⟨registry.entries.flatMap listing, verify r registry start⟩
  | .ebnf grammar => withGrammar s r grammar fun registry => .ok (registry.ebnf ++ [10])
  | .parse grammar rule inputs format =>
      withGrammar s r grammar fun registry => parseInputs s registry rule inputs format

/-- Runs the program with arguments. Arguments that are refused are answered with help. -/
def run (s : Surroundings) (args : List Bytes) : Outcome :=
  match request s.workplace args with
  | .ok r => perform s r
  | .error refused =>
      ⟨1, Help.page refused.command ++ [10],
        programName ++ ": error: " ++ refused.misuse.message ++ "\n"⟩

end Cli

end Rulebook

import Rulebook.Cli.Options

/-!
# Help pages

The page for the whole program and the page for one command. Flags and arguments are listed in two
columns, with the text on the right wrapped to the width of the page.
-/

namespace Rulebook

namespace Cli

namespace Help

/-- The width of a page. -/
def width : Nat := 80

/-- What stands before a listed line. -/
def indent : Bytes := "  "

/-- How far apart the columns are. -/
def gap : Nat := 4

/-- The words of a text. -/
def words (s : Bytes) : List Bytes :=
  (s.foldr (fun b parts =>
    match b == 32, parts with
    | true, _ => [] :: parts
    | false, [] => [[b]]
    | false, word :: rest => (b :: word) :: rest) [[]]).filter (!·.isEmpty)

/-- Fills lines of a width with words, given the line that is being filled. -/
def fill (limit : Nat) (line : Bytes) : List Bytes → List Bytes
  | [] => if line.isEmpty then [] else [line]
  | word :: rest =>
      if line.isEmpty then fill limit word rest
      else if line.length + 1 + word.length ≤ limit then fill limit (line ++ " " ++ word) rest
      else line :: fill limit word rest

/-- A text in lines of a width. -/
def wrap (limit : Nat) (s : Bytes) : List Bytes := fill limit [] (words s)

/-- A line without the spaces at its end. -/
def trimEnd (s : Bytes) : Bytes := (s.reverse.dropWhile (· == 32)).reverse

/-- A text filled up with spaces to a width. -/
def pad (size : Nat) (s : Bytes) : Bytes := s ++ Bytes.times (size - s.length) " "

/-- The lines of a list in two columns. -/
def columns (rows : List (Bytes × Bytes)) : List Bytes :=
  let left := (rows.map fun row => row.1.length).foldl max 0 + gap
  rows.flatMap fun row =>
    match wrap (width - indent.length - left) row.2 with
    | [] => [trimEnd (indent ++ row.1)]
    | first :: rest =>
        (indent ++ pad left row.1 ++ first) :: rest.map fun line => indent ++ pad left [] ++ line

/-- How a flag is listed. -/
def flagRow (f : Flag) : Bytes × Bytes :=
  let value : Bytes :=
    match f.placeholder? with
    | some p => "=" ++ p
    | none => []
  let letter : Bytes :=
    match f.short? with
    | some s => s ++ ", "
    | none => "    "
  (letter ++ f.long ++ value, f.about)

/-- The list of flags: those of all commands and, after an empty line, those of one. -/
def flagLines (own : List Flag) : List Bytes :=
  let more : List (Bytes × Bytes) := if own.isEmpty then [] else ([], []) :: own.map flagRow
  "Flags:" :: columns (Flag.global.map flagRow ++ more)

/-- The page for the whole program. -/
def program : List Bytes :=
  let commands := Command.all.flatMap fun c =>
    [indent ++ c.summary, indent ++ indent ++ c.about, []]
  ["Usage: " ++ programName ++ " <command> [flags]", [], programHelp, []] ++ flagLines [] ++
    [[], "Commands:"] ++ commands ++
    ["Run \"" ++ programName ++ " <command> --help\" for more information on a command."]

/-- The page for a command. -/
def command (c : Command) : List Bytes :=
  ["Usage: " ++ programName ++ " " ++ c.summary, [], c.about, [], "Arguments:"] ++
    columns (c.arguments.map fun a => (a.display, a.about)) ++ [[]] ++ flagLines c.flags

/-- The page for a command, or for the whole program. -/
def page (c : Option Command) : Bytes :=
  let lines :=
    match c with
    | none => program
    | some c => command c
  lines.flatMap fun line => line ++ [10]

end Help

end Cli

end Rulebook

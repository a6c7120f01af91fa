import Rulebook.Cli.Run

/-!
# The program

Gathers the arguments, the files that they may name and the standard input, and runs the command
line on them.
-/

namespace Rulebook

namespace Cli

/-- The file under a path, if there is one. A directory is known by a name below it. -/
def gather (resolved shown : String) : IO (List (Bytes × Bytes)) := do
  try
    let contents ← IO.FS.readBinFile resolved
    return [(Bytes.ofString shown, contents.toList)]
  catch _ =>
    let isDirectory ← (do let _ ← IO.FS.realPath (resolved ++ "/."); return true) <|> pure false
    return if isDirectory then [(Bytes.ofString (shown ++ "/."), [])] else []

/-- A byte string as a string. -/
def toText (s : Bytes) : String := (String.fromUTF8? ⟨s.toArray⟩).getD ""

/-- Whether reports are styled: only on a terminal, and not if the surroundings ask for none. -/
def wantsColor : IO Bool := do
  let isTerminal ← (← IO.getStdout).isTty
  let plain := ((← IO.getEnv "NO_COLOR").getD "") != ""
  let dumb := (← IO.getEnv "TERM") == some "dumb"
  return isTerminal && !plain && !dumb

end Cli

end Rulebook

open Rulebook Rulebook.Cli in
/-- Runs the program. -/
def main (args : List String) : IO UInt32 := do
  let directory := Bytes.ofString (← IO.currentDir).toString
  let home := Bytes.ofString ((← IO.getEnv "HOME").getD "")
  let empty : Workplace := ⟨directory, home, []⟩
  let mut files := []
  for arg in args do
    let path := toText (empty.resolve (Bytes.ofString arg))
    for parent in Workplace.parents (Bytes.ofString path) do
      if parent != [] then files := files ++ (← gather (toText parent) (toText parent))
    files := files ++ (← gather path path)
    if arg == "-" then files := files ++ (← gather path "-")
  let workplace : Workplace := ⟨directory, home, files⟩
  let arguments := args.map Bytes.ofString
  let needsStdin :=
    match request workplace arguments with
    | .ok ⟨.parse _ _ [] _, _, _⟩ => true
    | _ => false
  let stdin ←
    if needsStdin then
      try
        let text ← (← IO.getStdin).readBinToEnd
        pure ⟨text.toList, none⟩
      catch e => pure ⟨[], some (Bytes.ofString (toString e))⟩
    else pure ⟨[], none⟩
  let outcome := run ⟨workplace, stdin, ← wantsColor⟩ arguments
  let stdout ← IO.getStdout
  let stderr ← IO.getStderr
  stdout.write ⟨outcome.stdout.toArray⟩
  stderr.write ⟨outcome.stderr.toArray⟩
  stdout.flush
  return outcome.exit.toUInt32

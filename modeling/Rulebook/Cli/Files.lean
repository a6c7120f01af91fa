import Rulebook.Text.Quoted

/-!
# Files

Paths are names between slashes. A path that is not rooted is resolved against the directory that
the program works in. `Workplace` holds the files that the program can see, each under its resolved
path; a directory is what has files below it.
-/

namespace Rulebook

namespace Path

/-- The names of a path: what stands between its slashes, before the first and after the last. -/
def names : Bytes → List Bytes
  | [] => [[]]
  | b :: rest =>
      if b == 47 then [] :: names rest
      else
        match names rest with
        | [] => [[b]]
        | name :: others => (b :: name) :: others

/-- True of a path from the root. -/
def isRooted (path : Bytes) : Bool := path.head? == some 47

/-- Takes names one after another, the last first: a dot changes nothing, two dots go up. From the
    root nothing lies above. -/
def walk (rooted : Bool) : List Bytes → List Bytes → List Bytes
  | done, [] => done
  | done, name :: rest =>
      if name.isEmpty || name == "." then walk rooted done rest
      else if name == ".." then
        match done with
        | [] => walk rooted (if rooted then [] else [name]) rest
        | last :: before =>
            if last == ".." then walk rooted (name :: done) rest else walk rooted before rest
      else walk rooted (name :: done) rest

/-- The shortest path to the same place. -/
def clean (path : Bytes) : Bytes :=
  let rooted := isRooted path
  let body := Bytes.join "/" (walk rooted [] (names path)).reverse
  if rooted then "/" ++ body
  else if body.isEmpty then "."
  else body

/-- The path to a name in a directory. -/
def enter (directory name : Bytes) : Bytes :=
  if directory == "." then name
  else if directory == "/" then "/" ++ name
  else directory ++ "/" ++ name

end Path

/-- Why a file cannot be used. -/
inductive FileFault where
  /-- There is nothing under the path. -/
  | missing (action path : Bytes)
  /-- A file stands where the path needs a directory. -/
  | notDirectory (action path : Bytes)
  /-- The path or one of its names is too long. -/
  | nameTooLong (action path : Bytes)
  /-- The path holds a zero byte. -/
  | invalid (action path : Bytes)
  /-- The path is a directory. -/
  | directory (action path : Bytes)
  deriving DecidableEq, Repr

/-- The fault in words. -/
def FileFault.message : FileFault → Bytes
  | missing action path => action ++ " " ++ path ++ ": no such file or directory"
  | notDirectory action path => action ++ " " ++ path ++ ": not a directory"
  | nameTooLong action path => action ++ " " ++ path ++ ": file name too long"
  | invalid action path => action ++ " " ++ path ++ ": invalid argument"
  | directory action path =>
      if action == "open" then "read " ++ path ++ ": is a directory"
      else path.quote ++ " exists but is a directory"

/-- Where the program works and what it can see. -/
structure Workplace where
  /-- The directory that paths are resolved against. If it is empty, paths stay relative. -/
  directory : Bytes
  /-- The directory that a leading tilde stands for. -/
  home : Bytes
  /-- The files, each under its resolved path. -/
  files : List (Bytes × Bytes)

namespace Workplace

/-- The longest name that a file can have. -/
def maxName : Nat := 255

/-- The longest path that can be followed. -/
def maxPath : Nat := 4095

/-- The path of a file as the program shows it. A rooted path is left as it is. -/
def resolve (w : Workplace) (path : Bytes) : Bytes :=
  if Path.isRooted path then path
  else
    match path with
    | 126 :: 47 :: rest => Path.clean (w.home ++ "/" ++ rest)
    | _ => Path.clean (if w.directory.isEmpty then path else w.directory ++ "/" ++ path)

/-- The beginnings of a path that end before a slash. -/
def parents (path : Bytes) : List Bytes :=
  (List.range path.length).filterMap fun n =>
    if path[n]? == some 47 then some (path.take n) else none

/-- True if the path is a directory. The place that relative paths start from and all above it
    are. -/
def isDirectory (w : Workplace) (path : Bytes) : Bool :=
  path == "/" || (Path.names path).all (fun name => name == "." || name == "..") ||
    path == w.directory || (parents w.directory).contains path ||
    w.files.any fun file => (parents file.1).contains path

/-- Takes the names of a path one after another, from a place on, and tells where they lead.
    Every name but the last has to be a directory; two dots go up, and from the root nowhere. -/
def follow (w : Workplace) (action path : Bytes) : Bytes → List Bytes → Except FileFault Bytes
  | place, [] => .ok place
  | place, name :: rest =>
      if !w.isDirectory place then .error (.notDirectory action path)
      else if name.isEmpty || name == "." then follow w action path place rest
      else if name == ".." then
        follow w action path (Path.clean (Path.enter place name)) rest
      else if maxName < name.length then .error (.nameTooLong action path)
      else
        let next := Path.enter place name
        if (w.files.lookup next).isSome || w.isDirectory next then follow w action path next rest
        else .error (.missing action path)

/-- The contents of the file that a path leads to. -/
def read (w : Workplace) (action path : Bytes) : Except FileFault Bytes :=
  if path.contains 0 then .error (.invalid action path)
  else if maxPath < path.length then .error (.nameTooLong action path)
  else
    match w.follow action path (if Path.isRooted path then "/" else ".") (Path.names path) with
    | .error fault => .error fault
    | .ok place =>
        match w.files.lookup place with
        | some contents => .ok contents
        | none => .error (.directory action path)

end Workplace

end Rulebook

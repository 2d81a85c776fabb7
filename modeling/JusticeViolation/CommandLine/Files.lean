/-!
# Files below a working directory

The files that a command can see, as a value. A path is resolved name by name from the working
directory: an empty name and `.` stay where they are, `..` goes up, and any other name in the middle
of a path has to be that of a directory. A *place* is what is left of a path by this, so that two
paths to one file have one place.

Above the working directory there are directories too; nothing is known to be in them.
-/

namespace JusticeViolation.CommandLine

/-- Files and directories by their places. -/
structure Files where
  entries : List (List String × String) := []
  directories : List (List String) := []

namespace Files

/-! ## Paths -/

/-- The most bytes that a path may have. -/
def maxPathBytes : Nat := 4095

/-- The most bytes that a name may have. -/
def maxNameBytes : Nat := 255

/-- Whether a name in a path stays where it is. -/
def staying (name : String) : Bool := name == "" || name == "."

/-- The place above a place. -/
def above (place : List String) : List String :=
  match place.getLast? with
  | none | some ".." => place ++ [".."]
  | some _ => place.dropLast

/-- The names on the way to a file, and its own name: a path that begins at the root, or whose last
name is not that of a file, leads nowhere. -/
def split (path : String) : Option (List String × String) :=
  if path.startsWith "/" || path.contains '\x00' || maxPathBytes < path.utf8ByteSize then none
  else
    let names := path.splitOn "/"
    match names.getLast? with
    | none => none
    | some name => if staying name || name == ".." then none else some (names.dropLast, name)

/-- The path of the directory that a path leads into. -/
def parentPath (path : String) : String :=
  "/".intercalate ((path.splitOn "/").reverse.dropWhile staying).tail.reverse

/-! ## Look-up -/

variable (fs : Files)

/-- Whether there is a file at a place. -/
def isFile (place : List String) : Bool := (fs.entries.lookup place).isSome

/-- Whether there is a directory at a place. -/
def isDirectory (place : List String) : Bool := place.isEmpty || fs.directories.contains place

/-- Walk along a path of directories. -/
def walk (place : List String) : List String → Option (List String)
  | [] => some place
  | name :: names =>
    if staying name then walk place names
    else if name == ".." then walk (above place) names
    else if fs.isDirectory (place ++ [name]) then walk (place ++ [name]) names
    else none

/-- The text of a file. -/
def read? (path : String) : Option String := do
  let (parents, name) ← split path
  let place ← fs.walk [] parents
  fs.entries.lookup (place ++ [name])

/-! ## Changes -/

/-- Add a directory. -/
def addDirectory (place : List String) : Files :=
  { fs with directories := place :: fs.directories.filter (· != place) }

/-- Make the directories of a path from `place` on, unless there is a file in the way. -/
def makeDirectories : (fs : Files) → (place : List String) → List String → Option Files
  | fs, _, [] => some fs
  | fs, place, name :: names =>
    if staying name then makeDirectories fs place names
    else if name == ".." then makeDirectories fs (above place) names
    else if maxNameBytes < name.utf8ByteSize || fs.isFile (place ++ [name]) then none
    else makeDirectories (fs.addDirectory (place ++ [name])) (place ++ [name]) names

/-- Write a file, making the directories on the way to it. -/
def write? (path text : String) : Option Files := do
  let (parents, name) ← split path
  let fs ← fs.makeDirectories [] parents
  let place := (← fs.walk [] parents) ++ [name]
  if maxNameBytes < name.utf8ByteSize || fs.isDirectory place then none
  else some { fs with entries := (place, text) :: fs.entries.filter (·.1 != place) }

/-- The files that there are once texts have been written to paths, one after the other. -/
def ofTexts (texts : List (String × String)) : Files :=
  texts.foldl (fun fs (path, text) ↦ (fs.write? path text).getD fs) {}

end Files

end JusticeViolation.CommandLine

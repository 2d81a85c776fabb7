import JusticeViolation.CommandLine.Run

/-!
# The program

Reads the files that the command line names, carries it out, and writes what it leads to. Events
that are at least informative go to the error output.
-/

namespace JusticeViolation.CommandLine

/-- The texts of the files that can be read, by their paths. -/
def readTexts (paths : List String) : IO (List (String × String)) :=
  paths.filterMapM fun (path : String) ↦ do
    try
      return some (path, ← IO.FS.readFile path)
    catch _ =>
      return none

/-- Write a text file, making the directories on the way to it; answers whether this was
possible. -/
def writeText (path text : String) : IO Bool := do
  try
    let parent := Files.parentPath path
    if parent != "" then IO.FS.createDirAll parent
    IO.FS.writeFile path text
    return true
  catch _ =>
    return false

/-- Show an event, if it is urgent enough. -/
def showEvent (e : Event) : IO Unit := do
  if e.level.urgency ≤ Level.info.urgency then IO.eprintln e.line

/-- Carry out a command line, and show what it leads to. -/
def execute (args : List String) : IO UInt32 := do
  let texts ← readTexts (inputs args)
  let planned := run args fun path ↦ texts.lookup path
  let written ← match planned.file with
    | none => pure false
    | some (path, text) => writeText path text
  let outcome := planned.settle written
  outcome.events.forM showEvent
  match outcome.status with
  | .failed message => IO.eprintln s!"Error: {message}"
  | .stopped .misuse => IO.eprint (helpText .program)
  | _ => IO.print outcome.output
  return outcome.status.exitCode.toUInt32

end JusticeViolation.CommandLine

def main (args : List String) : IO UInt32 := JusticeViolation.CommandLine.execute args

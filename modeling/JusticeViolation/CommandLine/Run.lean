import JusticeViolation.CommandLine.Arguments
import JusticeViolation.CommandLine.Files
import JusticeViolation.Json.Printer
import JusticeViolation.Report
import JusticeViolation.Summary

/-!
# Carrying out commands

A command is a function of the files that it can read. What it leads to is an `Outcome`: the
output, a file to be written before anything is printed, and the events on the way. Faults are met
in a fixed order: the format, the options file, the memo, the construction, the file to be written.
A failed command prints nothing.
-/

namespace JusticeViolation.CommandLine

/-- How a command line ended. -/
inductive Status
  | done
  | failed (message : String)
  | stopped (reason : Stop)
deriving DecidableEq, Repr

/-- What a command line leads to. -/
structure Outcome where
  status : Status
  output : String := ""
  /-- The path and the text of the file to be written. -/
  file : Option (String × String) := none
  events : List Event := []

namespace Outcome

/-- A command that failed. -/
def failure (message : String) (events : List Event := []) : Outcome :=
  { status := .failed message, events }

/-- The outcome once it is known whether the file could be written. -/
def settle (o : Outcome) (written : Bool) : Outcome :=
  match o.file with
  | none => o
  | some (path, _) =>
    if written then { o with events := o.events ++ [.reportWritten path] }
    else failure s!"Failed to write {path}" o.events

end Outcome

/-- The exit code of a program that ended so. -/
def Status.exitCode : Status → Nat
  | done | stopped (.help _) | stopped .version => 0
  | failed _ => 1
  | stopped .misuse => 2

/-- A form of output. -/
inductive Format
  | text
  | json
deriving DecidableEq, Repr

/-- The form of output of a given name. -/
def Format.ofName (name : String) : Except String Format :=
  if name = "text" then .ok .text
  else if name = "json" then .ok .json
  else .error s!"Unknown output format: {name}. Use 'text' or 'json'."

/-! ## Input -/

/-- What can be read: the text of a file by its path. -/
abbrev Source := String → Option String

/-- The options in a file. -/
def readOptions (source : Source) (path : String) : Except String Options :=
  match source path with
  | none => .error s!"Failed to read {path}"
  | some text =>
    match (Json.parse? text).bind Options.ofJson? with
    | none => .error s!"Invalid options file {path}"
    | some o => .ok o

/-- The options of a request: those of the options file, overridden by flags. -/
def BuildRequest.resolve (r : BuildRequest) (source : Source) : Except String Options := do
  let o ← match r.options with
    | none => .ok {}
    | some path => readOptions source path
  return {
    assumptionGraphs := r.assumptionGraphs.getD o.assumptionGraphs
    invariants := o.invariants && !r.noInvariants
    mergeAttractors := o.mergeAttractors || r.mergeAttractors }

/-- The memo in a file, with the document that it was loaded from. -/
def readMemo (source : Source) (path : String) :
    Except MemoFault (Memo.Document × Memo.Loaded) :=
  match source path with
  | none => .error (.unreadable path)
  | some text => do
    let d ← Memo.Document.parse text
    return (d, ← d.load)

/-! ## Commands -/

/-- Deliver a report: print it, and write it if asked for. -/
def BuildRequest.deliver (r : BuildRequest) (format : Format) (report : Report)
    (events : List Event) : Outcome where
  status := .done
  output := match format with
    | .text => report.text
    | .json => report.toJson.pretty ++ "\n"
  file := r.out.map fun path ↦ (path, report.toJson.pretty)
  events := events

/-- Construct the graph of a memo that has been loaded. -/
def BuildRequest.construct (r : BuildRequest) (format : Format) (o : Options) (memo : Memo.Loaded)
    (events : List Event) : Outcome :=
  let c := memo.game.construct o
  let events := events ++ c.events
  match c.result with
  | .ok graph => r.deliver format (.ofGraph memo.game graph o r.samples) events
  | .error .realizable =>
    r.deliver format (.ofRealizable memo.game o) (events ++ [.gameRealizable])
  | .error (.violation cause) =>
    .failure s!"Justice violation graph construction failed: {cause.message}" events

/-- Carry out `build`. -/
def BuildRequest.run (r : BuildRequest) (source : Source) : Outcome :=
  match do return (← Format.ofName r.format, ← r.resolve source) with
  | .error message => .failure message
  | .ok (format, o) =>
    match readMemo source r.file with
    | .error fault => .failure fault.message
    | .ok (d, memo) =>
      r.construct format o memo
        [d.loadedEvent memo, .memoFileLoaded r.file memo.game.numRanks memo.game.numRows]

/-- Carry out `inspect`. -/
def runInspect (file format : String) (source : Source) : Outcome :=
  match Format.ofName format with
  | .error message => .failure message
  | .ok format =>
    match readMemo source file with
    | .error fault => .failure fault.message
    | .ok (d, memo) =>
      let summary := Summary.ofGame memo.game
      { status := .done
        output := match format with
          | .text => summary.text
          | .json => summary.toJson.pretty ++ "\n"
        events := [d.loadedEvent memo] }

/-! ## Help -/

/-- The name and version of the program. -/
def versionText : String := "jvg 0.1.0\n"

/-- The help on a topic. -/
def helpText : Topic → String
  | .program => "Build justice violation graphs for unrealizable GR(1) specifications

Usage: jvg <COMMAND>

Commands:
  build    Build the justice violation graph of a solved game memo
  inspect  Print the variables and the rank/row/column shape of a memo
  help     Print this message or the help of the given subcommand(s)

Options:
  -h, --help     Print help
  -V, --version  Print version
"
  | .build => "Build the justice violation graph of a solved game memo

Usage: jvg build [OPTIONS] <FILE>

Arguments:
  <FILE>  Path to the memo JSON file

Options:
      --options <OPTIONS>     Read build options from a JSON file; flags below override it
      --assumption-graphs     Record the assumption satisfaction order of every cycle node
      --no-assumption-graphs  Skip assumption satisfaction subgraphs
      --merge-attractors      Collapse single-path chains of attractor nodes
      --no-invariants         Skip invariant extraction
      --samples <SAMPLES>     Maximum number of sample states listed per node [default: 4]
      --format <FORMAT>       Output format: text | json [default: text]
      --out <OUT>             Also write the JSON report to this path
  -h, --help                  Print help
"
  | .inspect => "Print the variables and the rank/row/column shape of a memo

Usage: jvg inspect [OPTIONS] <FILE>

Arguments:
  <FILE>  Path to the memo JSON file

Options:
      --format <FORMAT>  Output format: text | json [default: text]
  -h, --help             Print help
"

/-- Carry out a command line up to the point where a file is to be written. -/
def run (args : List String) (source : Source) : Outcome :=
  match readCommand args with
  | .error (.help topic) => { status := .stopped (.help topic), output := helpText topic }
  | .error .version => { status := .stopped .version, output := versionText }
  | .error .misuse => { status := .stopped .misuse }
  | .ok (.build r) => r.run source
  | .ok (.inspect file format) => runInspect file format source

/-- The files that a command line reads. -/
def inputs (args : List String) : List String :=
  match readCommand args with
  | .error _ => []
  | .ok (.build r) => r.options.toList ++ [r.file]
  | .ok (.inspect file _) => [file]

/-- Carry out a command line below a working directory. -/
def runIn (fs : Files) (args : List String) : Outcome × Files :=
  let o := run args fs.read?
  match o.file with
  | none => (o, fs)
  | some (path, text) =>
    match fs.write? path text with
    | none => (o.settle false, fs)
    | some fs => (o.settle true, fs)

end JusticeViolation.CommandLine

/-!
# Arguments of the command line

A command line names a command and its arguments. An argument that begins with two hyphens is an
option, with its value in the same argument behind an equals sign, or in the next one; behind a
lone `--` everything is an operand. Options may not repeat, save that of two opposed flags the
later one counts. Reading stops at the first fault, and at a request for help.
-/

namespace JusticeViolation.CommandLine

/-- What help is asked about. -/
inductive Topic
  | program
  | build
  | inspect
deriving DecidableEq, Repr

/-- Why no command is carried out. -/
inductive Stop
  | help (topic : Topic)
  | version
  | misuse
deriving DecidableEq, Repr

/-! ## Words -/

/-- The shape of one argument. -/
inductive Word
  | separator
  /-- A long option, with the value attached to it. -/
  | long (name : String) (value : Option String)
  /-- Short options, by their first letter. -/
  | short (first : Char)
  | operand
deriving DecidableEq, Repr

/-- The shape of an argument. -/
def Word.of (arg : String) : Word :=
  match arg.toList with
  | ['-', '-'] => .separator
  | '-' :: '-' :: cs =>
    let name := String.ofList (cs.takeWhile (· != '='))
    match cs.dropWhile (· != '=') with
    | [] => .long name none
    | _ :: value => .long name (some (String.ofList value))
  | '-' :: c :: _ => .short c
  | _ => .operand

/-! ## Reading options -/

/-- The options of a command. -/
structure Grammar where
  topic : Topic
  flags : List String
  /-- Pairs of flags of which the later one counts. -/
  opposed : List (String × String)
  /-- Options with a value, and which values are fit. -/
  valued : List (String × (String → Bool))
  /-- Which operand is fit. -/
  operand : String → Bool

/-- The arguments that have been read. -/
structure Found where
  operand : Option String := none
  flags : List String := []
  values : List (String × String) := []

namespace Grammar

variable (gr : Grammar)

/-- Read an operand: there is only one. -/
def addOperand (f : Found) (arg : String) : Except Stop Found :=
  if f.operand.isNone && gr.operand arg then .ok { f with operand := some arg }
  else .error .misuse

/-- Read a flag. -/
def addFlag (f : Found) (name : String) : Except Stop Found :=
  if f.flags.contains name then .error .misuse
  else
    let cancelled := gr.opposed.filterMap fun (a, b) ↦
      if a == name then some b else if b == name then some a else none
    .ok { f with flags := name :: f.flags.filter fun flag ↦ !cancelled.contains flag }

/-- Read an option with a value. -/
def addValue (f : Found) (name value : String) : Except Stop Found :=
  match gr.valued.lookup name with
  | none => .error .misuse
  | some fit =>
    if fit value && (f.values.lookup name).isNone then
      .ok { f with values := (name, value) :: f.values }
    else .error .misuse

/-- Read arguments behind a separator. -/
def readOperands (f : Found) : List String → Except Stop Found
  | [] => .ok f
  | arg :: rest => do readOperands (← gr.addOperand f arg) rest

/-- Read arguments. -/
def read (f : Found) : List String → Except Stop Found
  | [] => .ok f
  | arg :: rest =>
    match Word.of arg with
    | .separator => gr.readOperands f rest
    | .operand => do read (← gr.addOperand f arg) rest
    | .short 'h' => .error (.help gr.topic)
    | .short _ => .error .misuse
    | .long name (some value) => do read (← gr.addValue f name value) rest
    | .long name none =>
      if name == "help" then .error (.help gr.topic)
      else if gr.flags.contains name then do read (← gr.addFlag f name) rest
      else
        match rest with
        | [] => .error .misuse
        | value :: rest =>
          if Word.of value = .operand then do read (← gr.addValue f name value) rest
          else .error .misuse

end Grammar

/-! ## Commands -/

/-- A request to construct a graph. -/
structure BuildRequest where
  file : String
  options : Option String
  /-- Whether assumption graphs are asked for or declined. -/
  assumptionGraphs : Option Bool
  mergeAttractors : Bool
  noInvariants : Bool
  samples : Nat
  format : String
  out : Option String
deriving DecidableEq, Repr

/-- A command. -/
inductive Command
  | build (request : BuildRequest)
  | inspect (file format : String)
deriving DecidableEq, Repr

/-- A path is not empty. -/
def isPath (s : String) : Bool := s != ""

/-- The digits of a count: a sign may stand before them. -/
def countDigits (s : String) : List Char :=
  match s.toList with
  | '+' :: cs => cs
  | cs => cs

/-- The number written by decimal digits. -/
def decimal (cs : List Char) : Nat := cs.foldl (fun n c ↦ 10 * n + (c.toNat - '0'.toNat)) 0

/-- A count fits into 64 bits. -/
def isCount (s : String) : Bool :=
  let cs := countDigits s
  !cs.isEmpty && cs.all Char.isDigit && decimal cs ≤ 0xffffffffffffffff

/-- The options of `build`. -/
def buildGrammar : Grammar where
  topic := .build
  flags := ["assumption-graphs", "no-assumption-graphs", "merge-attractors", "no-invariants"]
  opposed := [("assumption-graphs", "no-assumption-graphs")]
  valued := [("options", isPath), ("samples", isCount), ("format", fun _ ↦ true),
    ("out", isPath)]
  operand := isPath

/-- The options of `inspect`. -/
def inspectGrammar : Grammar where
  topic := .inspect
  flags := []
  opposed := []
  valued := [("format", fun _ ↦ true)]
  operand := isPath

/-- The format that is used unless another is asked for. -/
def defaultFormat : String := "text"

/-- The number of samples that is used unless another is asked for. -/
def defaultSamples : Nat := 4

/-- The arguments of `build`. -/
def readBuild (args : List String) : Except Stop Command := do
  let f ← buildGrammar.read {} args
  match f.operand with
  | none => .error .misuse
  | some file =>
    return .build {
      file
      options := f.values.lookup "options"
      assumptionGraphs :=
        if f.flags.contains "assumption-graphs" then some true
        else if f.flags.contains "no-assumption-graphs" then some false
        else none
      mergeAttractors := f.flags.contains "merge-attractors"
      noInvariants := f.flags.contains "no-invariants"
      samples := ((f.values.lookup "samples").map fun s ↦ decimal (countDigits s)).getD
        defaultSamples
      format := (f.values.lookup "format").getD defaultFormat
      out := f.values.lookup "out" }

/-- The arguments of `inspect`. -/
def readInspect (args : List String) : Except Stop Command := do
  let f ← inspectGrammar.read {} args
  match f.operand with
  | none => .error .misuse
  | some file => return .inspect file ((f.values.lookup "format").getD defaultFormat)

/-- The arguments of `help`: at most one command. -/
def readHelp : List String → Stop
  | [] | ["help"] => .help .program
  | ["build"] => .help .build
  | ["inspect"] => .help .inspect
  | _ => .misuse

/-- Read a command line. -/
def readCommand : List String → Except Stop Command
  | [] => .error .misuse
  | "build" :: args => readBuild args
  | "inspect" :: args => readInspect args
  | "help" :: args => .error (readHelp args)
  | arg :: _ =>
    match Word.of arg with
    | .short 'h' | .long "help" none => .error (.help .program)
    | .short 'V' | .long "version" none => .error .version
    | _ => .error .misuse

end JusticeViolation.CommandLine

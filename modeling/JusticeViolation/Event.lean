import JusticeViolation.NodeKind

/-!
# Events

What a construction reports about its progress. Events are values: the functions that make them
return them in order, and only the outermost layer decides which of them are shown, and where.
-/

namespace JusticeViolation

/-- How urgent an event is, most urgent first. -/
inductive Level
  | error
  | warn
  | info
  | debug
  | trace
deriving DecidableEq, Repr

namespace Level

/-- The position in the order of urgency. -/
def urgency : Level → Nat
  | error => 0
  | warn => 1
  | info => 2
  | debug => 3
  | trace => 4

/-- The name in a log. -/
def label : Level → String
  | error => "ERROR"
  | warn => "WARN"
  | info => "INFO"
  | debug => "DEBUG"
  | trace => "TRACE"

end Level

/-- One event. -/
inductive Event
  | memoLoaded (declared ranks rows : Nat)
  | rankingBuilt (nodes edges markerEdges : Nat)
  | deadlockForced
  | rankingReady (ranks rankNodes : Nat)
  | rankStarted (rank startPoints : Nat)
  | pathExtended (rank row column : Nat)
  | nodeEmitted (node rank : Nat) (kind : NodeKind)
  | successorQueued (source rank cells : Nat)
  | rankDecomposed (rank paths nodes : Nat)
  | nodeMerged (parent child : Nat)
  | chainsMerged (merged nodes : Nat)
  | graphBuilt (nodes edges : Nat)
  | memoFileLoaded (file : String) (ranks rows : Nat)
  | gameRealizable
  | reportWritten (path : String)
deriving DecidableEq, Repr

namespace Event

/-- How urgent an event is. -/
def level : Event → Level
  | deadlockForced | gameRealizable => .warn
  | rankingReady .. | rankDecomposed .. | chainsMerged .. | graphBuilt .. | memoFileLoaded ..
  | reportWritten .. => .info
  | memoLoaded .. | rankingBuilt .. | rankStarted .. | nodeEmitted .. | successorQueued ..
  | nodeMerged .. => .debug
  | pathExtended .. => .trace

/-- What an event says. -/
def message : Event → String
  | memoLoaded .. => "Loaded memo"
  | rankingBuilt .. => "Built ranking graph"
  | deadlockForced => "Environment can force a system deadlock from the initial states"
  | rankingReady .. => "Ranking graph ready"
  | rankStarted .. => "Processing rank node"
  | pathExtended .. => "Extended path"
  | nodeEmitted .. => "Emitted node"
  | successorQueued .. => "Queued successor"
  | rankDecomposed .. => "Decomposed rank node"
  | nodeMerged .. => "Merged attractor node"
  | chainsMerged .. => "Merged attractor chains"
  | graphBuilt .. => "Justice violation graph built"
  | memoFileLoaded .. => "Loaded memo"
  | gameRealizable =>
    "No initial state is winning for the environment; specification is realizable"
  | reportWritten .. => "Wrote report"

/-- The named values of an event. -/
def fields : Event → List (String × String)
  | memoLoaded declared ranks rows =>
    [("variables", toString declared), ("ranks", toString ranks), ("rows", toString rows)]
  | rankingBuilt nodes edges markerEdges =>
    [("nodes", toString nodes), ("edges", toString edges),
      ("marker_edges", toString markerEdges)]
  | deadlockForced => []
  | rankingReady ranks rankNodes =>
    [("ranks", toString ranks), ("rank_nodes", toString rankNodes)]
  | rankStarted rank startPoints =>
    [("rank", toString rank), ("start_points", toString startPoints)]
  | pathExtended rank row column =>
    [("rank", toString rank), ("row", toString row), ("col", toString column)]
  | nodeEmitted node rank kind =>
    [("node", nodeName node), ("rank", toString rank), ("kind", kind.label)]
  | successorQueued source rank cells =>
    [("from", nodeName source), ("rank", toString rank), ("cells", toString cells)]
  | rankDecomposed rank paths nodes =>
    [("rank", toString rank), ("paths", toString paths), ("nodes", toString nodes)]
  | nodeMerged parent child => [("parent", nodeName parent), ("child", nodeName child)]
  | chainsMerged merged nodes => [("merged", toString merged), ("nodes", toString nodes)]
  | graphBuilt nodes edges => [("nodes", toString nodes), ("edges", toString edges)]
  | memoFileLoaded file ranks rows =>
    [("file", file), ("ranks", toString ranks), ("rows", toString rows)]
  | gameRealizable => []
  | reportWritten path => [("path", path)]

/-- The line shown for an event. -/
def line (e : Event) : String :=
  " ".intercalate (e.level.label :: e.message :: e.fields.map fun f ↦ f.1 ++ "=" ++ f.2)

end Event

end JusticeViolation

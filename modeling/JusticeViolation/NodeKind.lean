/-!
# Kinds of graph nodes

A justice violation graph describes how the environment wins: from the initial states through
attractors into cycles. The four kinds are listed in the order in which reports count them.
-/

namespace JusticeViolation

/-- What a node of a justice violation graph stands for. -/
inductive NodeKind
  /-- The initial states. -/
  | initial
  /-- States on which the environment keeps meeting its assumptions for ever while a guarantee
  of the system stays violated. -/
  | cycle
  /-- States from which the environment forces a lower rank, or leaves the system stuck. -/
  | attractorFromCycle
  /-- States on the way into a cycle. -/
  | attractorNotFromCycle
deriving DecidableEq, Repr

namespace NodeKind

/-- All kinds, in the order of reports. -/
def all : List NodeKind := [initial, cycle, attractorFromCycle, attractorNotFromCycle]

/-- The name in running text. -/
def label : NodeKind → String
  | initial => "Initial"
  | cycle => "Cycle"
  | attractorFromCycle => "AttractorFromCycle"
  | attractorNotFromCycle => "AttractorNotFromCycle"

/-- The name in reports for machines. -/
def key : NodeKind → String
  | initial => "initial"
  | cycle => "cycle"
  | attractorFromCycle => "attractor_from_cycle"
  | attractorNotFromCycle => "attractor_not_from_cycle"

/-- The kinds of which chains may be merged. -/
def isAttractor : NodeKind → Bool
  | attractorFromCycle | attractorNotFromCycle => true
  | initial | cycle => false

end NodeKind

/-- How the node of a given number is named. -/
def nodeName (id : Nat) : String := s!"n{id}"

end JusticeViolation

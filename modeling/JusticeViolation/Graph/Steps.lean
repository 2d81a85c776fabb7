import JusticeViolation.Graph.Basic

/-!
# Steps along a graph

A step out of a node is a choice that its states are committed to, with any answer of the system;
the initial node has no steps but stands for the initial states themselves. An edge carries the
states that a step along it arrives in. The facts of nodes and edges are those of their states, the
row marker aside.
-/

namespace JusticeViolation.Graph

variable {sp : Space} (g : Game sp) (graph : Graph sp)

/-! ## States of edges -/

/-- The states that a step out of a node arrives in, without tags; none if there is no such
node. -/
def arrivals? (source : Nat) : Option (StateSet sp) :=
  if source = initialId then some g.initial
  else (graph.node? source).map fun n ↦ g.strip (g.image n.states n.transitions)

/-- The states that an edge carries, or would carry; none if a node is missing. -/
def edgeStates? (source target : Nat) : Option (StateSet sp) := do
  let n ← graph.node? target
  let s ← graph.arrivals? g source
  return s ∩ g.strip n.states

/-- The steps of a node, within `refine`, by the node in which they arrive: itself or one of its
children. For the initial node, the initial states by the child that holds them. -/
def successors (id : Nat) (refine : StateSet sp) : List (Nat × StateSet sp) :=
  match graph.node? id with
  | none => []
  | some n =>
    let parts :=
      if id = initialId then
        (graph.children id).filterMap fun child ↦ (graph.node? child).map fun m ↦
          (child, g.initial ∩ refine ∩ g.strip m.states)
      else
        let steps := n.transitions ∩ refine ∩ g.sysTrans
        (id :: graph.children id).filterMap fun child ↦ (graph.node? child).map fun m ↦
          (child, steps ∩ (g.strip m.states).prime)
    parts.filter fun p ↦ !p.2.isEmpty

/-! ## Facts -/

/-- The facts about the states of an edge. -/
def edgeFacts (source target : Nat) : List Fact :=
  match graph.edgeStates? g source target with
  | none => []
  | some s => s.facts [g.marker]

/-- Find the facts of the edges that `touched` selects. -/
def annotateEdges (touched : Nat → Nat → Bool) : Graph sp :=
  { graph with
    edges := graph.edges.map fun e ↦
      if touched e.source e.target then { e with facts := graph.edgeFacts g e.source e.target }
      else e }

/-- Find the facts of all nodes and edges. -/
def annotate : Graph sp :=
  (graph.mapNodes fun n ↦ { n with facts := (g.strip n.states).facts [g.marker] }).annotateEdges g
    fun _ _ ↦ true

end JusticeViolation.Graph

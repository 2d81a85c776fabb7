import JusticeViolation.Decomposition
import JusticeViolation.Graph.Merge

/-!
# Constructing the justice violation graph

A construction checks the shape of the game, looks for a deadlock that the environment can force
at once, and else decomposes the ranks. Facts are found and chains merged as the options ask for.
There is no partial graph: a construction ends with a graph or with the cause for which there is
none. What it reports on its way is kept in either case.
-/

namespace JusticeViolation

/-- A construction, with its reports in order. -/
structure Construction (sp : Space) where
  result : Except BuildFault (Graph sp)
  events : List Event

namespace Game

variable {sp : Space} (g : Game sp)

/-- The graph of initial states in which the environment can leave the system stuck. -/
def deadlockGraph? : Option (Graph sp) :=
  let choices := g.deadlocking ∩ g.initial
  let states := g.domain choices
  if states.isEmpty then none
  else
    let initial : Node sp := ⟨Graph.initialId, none, g.initial, ∅, [], .initial⟩
    let stuck : Node sp := ⟨1, none, states, g.determinize choices, [], .attractorFromCycle⟩
    some (((Graph.empty.addNode initial).addNode stuck).addEdge Graph.initialId 1)

/-- The graph before facts are found and chains merged. -/
def bareGraph (o : Options) : Construction sp :=
  match g.deadlockGraph? with
  | some graph => ⟨.ok graph, [.deadlockForced]⟩
  | none =>
    match g.ranking? with
    | none => ⟨.error .realizable, []⟩
    | some ranking =>
      let events := [ranking.builtEvent, .rankingReady g.numRanks ranking.nodes.length]
      match g.decompose o ranking with
      | .error h => ⟨.error (.violation h.cause), events ++ h.log.reverse⟩
      | .ok d => ⟨.ok d.graph, events ++ d.log.reverse⟩

/-- Find the facts of a graph and merge its chains. -/
def finish (o : Options) (graph : Graph sp) : Graph sp × List Event :=
  let graph := if o.invariants then graph.annotate g else graph
  if o.mergeAttractors then
    let merged := graph.mergeAttractors g o.invariants
    let foldings := graph.foldings
    (merged, foldings.map (fun (parent, child) ↦ .nodeMerged parent child) ++
      [.chainsMerged foldings.length merged.nodes.length])
  else (graph, [])

/-- Construct the justice violation graph of a game. -/
def construct (o : Options) : Construction sp :=
  match g.shapeFault? with
  | some fault => ⟨.error (.violation (.malformedMemo (.shape fault))), []⟩
  | none =>
    let bare := g.bareGraph o
    match bare.result with
    | .error e => ⟨.error e, bare.events⟩
    | .ok graph =>
      let (graph, events) := g.finish o graph
      ⟨.ok graph, bare.events ++ events ++
        [.graphBuilt graph.nodes.length graph.edges.length]⟩

/-- The justice violation graph of a game. -/
def build (o : Options) : Except BuildFault (Graph sp) := (g.construct o).result

end Game

end JusticeViolation

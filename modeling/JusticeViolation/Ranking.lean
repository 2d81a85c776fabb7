import JusticeViolation.Event
import JusticeViolation.Game.Moves

/-!
# The ranking graph

The ranks of a game are made disjoint: the *level* of a rank holds the states that lie in no lower
rank. The ranking graph has a node for every rank whose level is not empty, from the highest rank
down, and an edge to a lower rank wherever the game can get there without passing through a higher
one. A *marker* node without states stands for the start of the game; its edges lead to the levels
that meet the states reachable from the initial ones. If there is none, the environment cannot win.
-/

namespace JusticeViolation

/-- The node of a rank. -/
structure RankNode (sp : Space) where
  rank : Nat
  states : StateSet sp
  /-- The lower ranks that can be reached from here, from the highest down. -/
  targets : List Nat

/-- The ranking graph. -/
structure Ranking (sp : Space) where
  numRanks : Nat
  /-- The nodes, from the highest rank down. -/
  nodes : List (RankNode sp)
  /-- The ranks that the marker leads to, from the highest down. -/
  entries : List Nat

/-- What `s` holds beyond `lower`, then what each later set holds beyond those before it. -/
def StateSet.increments {sp : Space} (lower : StateSet sp) :
    List (StateSet sp) → List (StateSet sp)
  | [] => []
  | s :: ss => s \ lower :: increments (lower ∪ s) ss

namespace Game

variable {sp : Space} (g : Game sp)

/-- The level of each rank. -/
def levels : List (StateSet sp) := StateSet.increments ∅ g.ranks

/-- The ranks with a level that is not empty, with these levels, from the highest down. -/
def occupied : List (Nat × StateSet sp) :=
  (g.levels.zipIdx.map fun (s, rank) ↦ (rank, s)).reverse.filter fun l ↦ !l.2.isEmpty

/-- The node of the first of some levels, given from the highest down. -/
def rankNode (level : Nat × StateSet sp) (below : List (Nat × StateSet sp)) : RankNode sp :=
  let within := StateSet.unionAll ((level :: below).map (·.2))
  let reach := g.reachable level.2 within
  ⟨level.1, level.2, (below.filter fun l ↦ l.2.meets reach).map (·.1)⟩

/-- The nodes of some levels, given from the highest down. -/
def rankNodes : List (Nat × StateSet sp) → List (RankNode sp)
  | [] => []
  | level :: below => g.rankNode level below :: rankNodes below

/-- The ranking graph; none if no rank can be reached from the initial states. -/
def ranking? : Option (Ranking sp) :=
  let reach := g.reachable g.initial .univ
  let entries := (g.occupied.filter fun l ↦ l.2.meets reach).map (·.1)
  if entries.isEmpty then none
  else some ⟨g.numRanks, g.rankNodes g.occupied, entries⟩

end Game

namespace Ranking

variable {sp : Space} (r : Ranking sp)

/-- The node of a rank. -/
def node? (rank : Nat) : Option (RankNode sp) := r.nodes.find? (·.rank == rank)

/-- The number of the node of a rank; the marker has number 0. -/
def nodeId? (rank : Nat) : Option Nat := (r.nodes.findIdx? (·.rank == rank)).map (· + 1)

/-- The number of edges, those of the marker among them. -/
def edgeCount : Nat := r.entries.length + (r.nodes.flatMap (·.targets)).length

/-- What is reported about a ranking graph. -/
def builtEvent : Event := .rankingBuilt r.nodes.length r.edgeCount r.entries.length

end Ranking

end JusticeViolation

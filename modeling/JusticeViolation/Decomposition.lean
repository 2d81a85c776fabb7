import JusticeViolation.Graph.Steps
import JusticeViolation.Options
import JusticeViolation.Split

/-!
# Decomposing the ranks

Ranks are decomposed from the highest down. The start of the game puts the ranks of the marker
into a queue, with the initial states as start points, fixed to one move of the environment in each
cell. Every rank is split, its parts become nodes, and edges are added where a step is found: from
the nodes that led here to the new nodes, and among these in the order approach, cycle, descent.
What the new nodes lead to in other ranks becomes start points there. A rank is never entered
again once it is done.
-/

namespace JusticeViolation

/-- A decomposition under way. -/
structure Decomposition (sp : Space) where
  graph : Graph sp
  /-- Ranks to come, from the highest down. -/
  queue : List (Item sp)
  /-- Ranks that have been taken up. -/
  done : List Nat
  /-- What has been reported, the latest first. -/
  log : List Event

/-- A decomposition that broke off. -/
structure Halt where
  cause : Violation
  /-- What has been reported, the latest first. -/
  log : List Event

namespace Decomposition

variable {sp : Space}

/-! ## The queue -/

/-- Change the item of a rank in a queue, which is `fresh` if there is none. -/
def changeItem (fresh : Item sp) (change : Item sp → Item sp) : List (Item sp) → List (Item sp)
  | [] => [change fresh]
  | item :: items =>
    if item.node.rank < fresh.node.rank then change fresh :: item :: items
    else if item.node.rank = fresh.node.rank then change item :: items
    else item :: changeItem fresh change items

variable (g : Game sp) (d : Decomposition sp)

/-- Report an event. -/
def report (e : Event) : Decomposition sp := { d with log := e :: d.log }

/-- Change the item of a rank. -/
def enqueue (node : RankNode sp) (change : Item sp → Item sp) : Decomposition sp :=
  { d with queue := changeItem (g.item node) change d.queue }

/-- The initial states in each cell of an item, fixed to one move of the environment. -/
def initialStarts (item : Item sp) : List (Nat × Nat × StateSet sp) :=
  (item.parts g.initial).map fun (row, column, part) ↦
    match part.sampleCube? g.envIds with
    | none => (row, column, part)
    | some cube => (row, column, part ∩ cube)

/-- The decomposition that begins with the marker of a ranking graph. -/
def start (ranking : Ranking sp) : Decomposition sp :=
  let initial : Node sp := ⟨Graph.initialId, none, g.initial, ∅, [], .initial⟩
  let d : Decomposition sp := ⟨Graph.empty.addNode initial, [], [], []⟩
  (ranking.entries.filterMap ranking.node?).foldl (fun d node ↦
    d.enqueue g node fun item ↦
      item.addStarts (initialStarts g item) Graph.initialId) d

/-! ## Nodes and edges -/

/-- Add the node of one part of a rank, unless the part is empty. The numbers of the nodes that
were added are listed in order. -/
def emit (rank : Nat) (inner states : StateSet sp) (body : NodeBody sp)
    (s : Decomposition sp × List Nat) : Decomposition sp × List Nat :=
  let (d, emitted) := s
  if states.isEmpty then (d, emitted)
  else
    let id := d.graph.nextId
    let node : Node sp := ⟨id, some rank, states, inner ∩ states, [], body⟩
    (({ d with graph := d.graph.addNode node }).report (.nodeEmitted id rank body.kind),
      emitted ++ [id])

/-- Add an edge if a step leads along it. -/
def connect (graph : Graph sp) (source target : Nat) : Graph sp :=
  if (graph.edgeStates? g source target).any fun s ↦ !s.isEmpty then graph.addEdge source target
  else graph

/-- The pairs of an earlier and a later member of a list. -/
def laterPairs : List Nat → List (Nat × Nat)
  | [] => []
  | n :: ns => ns.map (fun m ↦ (n, m)) ++ laterPairs ns

/-- The edges to look for around new nodes. -/
def edgeCandidates (sources emitted : List Nat) : List (Nat × Nat) :=
  (emitted.flatMap fun target ↦ sources.map fun source ↦ (source, target)) ++ laterPairs emitted

/-- Add the edges around new nodes. -/
def connectAll (sources emitted : List Nat) : Decomposition sp :=
  { d with
    graph := (edgeCandidates sources emitted).foldl (fun graph (source, target) ↦
      connect g graph source target) d.graph }

/-! ## Successors -/

/-- Offer what a node of `rank` leads to to another rank. -/
def offer (rank id : Nat) (image : StateSet sp) (d : Decomposition sp) (other : RankNode sp) :
    Except Halt (Decomposition sp) :=
  if other.rank = rank || !image.meets other.states then .ok d
  else if d.done.contains other.rank then
    .error ⟨.decomposedSuccessor rank other.rank, d.log⟩
  else
    let cells := ((g.item other).parts image).length
    .ok ((d.enqueue g other fun item ↦ item.offer image id).report
      (.successorQueued id other.rank cells))

/-- Offer what new nodes of `rank` lead to to all other ranks. -/
def queueSuccessors (ranking : Ranking sp) (rank : Nat) (emitted : List Nat) :
    Except Halt (Decomposition sp) :=
  emitted.foldlM (fun d id ↦
    match d.graph.node? id with
    | none => .ok d
    | some n =>
      let image := g.strip (g.image n.states n.transitions)
      ranking.nodes.foldlM (offer g rank id image) d) d

/-! ## One rank -/

/-- The union of the ranks that a rank leads to. -/
def lower (ranking : Ranking sp) (node : RankNode sp) : StateSet sp :=
  .unionAll ((node.targets.filterMap ranking.node?).map (·.states))

/-- The node of a cycle, with an assumption graph if it is asked for. -/
def cycleBody (o : Options) (rank : Nat) (s : Split sp) : Except Violation (NodeBody sp) :=
  if o.assumptionGraphs && !s.cycle.isEmpty then
    (g.assumptionGraph rank s.cycle s.tracing.inner s.tracing.paths).map fun a ↦ .cycle (some a)
  else .ok (.cycle none)

/-- Decompose one rank. -/
def process (o : Options) (ranking : Ranking sp) (item : Item sp) :
    Except Halt (Decomposition sp) := do
  let rank := item.node.rank
  let d := { d with done := rank :: d.done }.report (.rankStarted rank item.starts.length)
  let s := item.split g (lower ranking item.node)
  let d := (s.tracing.events s.maze).foldl report d
  match s.tracing.violation with
  | some v => .error ⟨v, d.log⟩
  | none =>
    let emit := emit rank s.tracing.inner
    let (d, emitted) := emit s.approach .attractorNotFromCycle (d, [])
    match cycleBody g o rank s with
    | .error v => .error ⟨v, d.log⟩
    | .ok body =>
      let (d, emitted) := emit s.descent .attractorFromCycle (emit s.cycle body (d, emitted))
      let d := d.connectAll g item.sources emitted
      let d ← d.queueSuccessors g ranking rank emitted
      return d.report (.rankDecomposed rank s.tracing.walks.length emitted.length)

/-- Decompose the ranks in the queue, and those that are added to it. -/
def run (o : Options) (ranking : Ranking sp) : (fuel : Nat) → Decomposition sp →
    Except Halt (Decomposition sp)
  | 0, d => .ok d
  | fuel + 1, d =>
    match d.queue with
    | [] => .ok d
    | item :: queue => do
      let d ← { d with queue }.process g o ranking item
      run o ranking fuel d

end Decomposition

/-- Decompose all ranks. None is entered again once it is done, so there are no more rounds than
ranks. -/
def Game.decompose {sp : Space} (g : Game sp) (o : Options) (ranking : Ranking sp) :
    Except Halt (Decomposition sp) :=
  (Decomposition.start g ranking).run g o ranking (ranking.nodes.length + 1)

end JusticeViolation

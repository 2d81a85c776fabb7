import JusticeViolation.Event
import JusticeViolation.Graph.Steps

/-!
# Merging chains of attractors

An attractor that is reached from another attractor in one way only is folded into it. The graph is
searched breadth first from the initial node, and every attractor met takes in such children as the
search comes to it; what a child led to is searched later. Folding unites states and transitions
and keeps the facts that both share. Nodes are numbered through in the end.
-/

namespace JusticeViolation.Graph

variable {sp : Space} (g : Game sp) (graph : Graph sp)

/-! ## Counting paths -/

/-- The first of some numbers that has not been seen, and the numbers behind it. -/
def nextUnseen? (seen : List Nat) : List Nat → Option (Nat × List Nat)
  | [] => none
  | n :: ns => if n ∈ seen then nextUnseen? seen ns else some (n, ns)

/-- The numbers of all nodes and ends of edges, with repetitions. -/
def mentioned : List Nat :=
  graph.nodes.map (·.id) ++ graph.edges.flatMap fun e ↦ [e.source, e.target]

/-- Search on from `queue`, given the nodes already reached. -/
def reachFrom : (fuel : Nat) → (queue reached : List Nat) → List Nat
  | 0, _, reached => reached
  | fuel + 1, queue, reached =>
    match nextUnseen? reached queue with
    | none => reached
    | some (id, queue) =>
      reachFrom fuel (queue ++ graph.children id) (insertAscending id reached)

/-- The nodes that can be reached from a node, itself among them, ascending. -/
def reachedFrom (id : Nat) : List Nat :=
  graph.reachFrom (graph.mentioned.length + 1) [id] []

/-- Counts of paths: for each node the edges not yet followed into it, and the paths found. -/
structure PathCount where
  id : Nat
  pending : Nat
  paths : Nat
deriving DecidableEq, Repr

/-- Follow the edges from a node with `here` paths to its children: no count goes beyond 2. -/
def followEdges (here : Nat) (children : List Nat) (counts : List PathCount) : List PathCount :=
  counts.map fun c ↦
    if c.id ∈ children then { c with pending := c.pending - 1, paths := min (c.paths + here) 2 }
    else c

/-- Count on from the nodes in `ready`, whose counts are final. -/
def countFrom : (fuel : Nat) → (ready : List Nat) → List PathCount → List PathCount
  | 0, _, counts => counts
  | _, [], counts => counts
  | fuel + 1, id :: ready, counts =>
    let here := ((counts.find? (·.id == id)).map (·.paths)).getD 0
    let children := graph.children id
    let counts := followEdges here children counts
    let fresh := children.filter fun child ↦
      counts.any fun c ↦ c.id == child && c.pending == 0
    countFrom fuel (ready ++ fresh) counts

/-- The number of different paths from one node to another, where 2 stands for any larger number,
and for paths that go through a circle. -/
def pathCount (source target : Nat) : Nat :=
  let reached := graph.reachedFrom source
  if target ∉ reached then 0
  else
    let counts := reached.map fun id ↦
      (⟨id, ((graph.edges.filter fun e ↦ e.target == id && reached.contains e.source).length),
        if id = source then 1 else 0⟩ : PathCount)
    let ready := (counts.filter (·.pending == 0)).map (·.id)
    match (graph.countFrom reached.length ready counts).find? (·.id == target) with
    | none => 0
    | some c => if 0 < c.pending then 2 else c.paths

/-! ## Folding one node into another -/

/-- The edge that `e`, an edge of `child`, becomes when `child` is folded into `parent`. -/
def reroute (parent child : Nat) (e : Edge) : Edge :=
  if e.source = child then { e with source := parent } else { e with target := parent }

/-- Unite a node with another. -/
def unite (n m : Node sp) : Node sp :=
  { n with
    states := n.states ∪ m.states
    transitions := n.transitions ∪ m.transitions
    facts := n.facts.filter m.facts.contains }

/-- Fold `child` into `parent`. -/
def absorb (parent child : Nat) : Graph sp :=
  match graph.node? child with
  | none => graph
  | some m =>
    let rest := (graph.removeNode child).mapNodes fun n ↦ if n.id = parent then unite n m else n
    (graph.edgesOf child).foldl (fun rest e ↦ rest.mergeEdge (reroute parent child e)) rest

/-! ## The search -/

/-- Whether a child can be folded into an attractor. -/
def foldable (parent child : Nat) : Bool :=
  (graph.node? child).any (·.kind.isAttractor) && graph.pathCount parent child ≤ 1

/-- A search under way. -/
structure Merging (sp : Space) where
  graph : Graph sp
  /-- Nodes to come. -/
  queue : List Nat
  /-- Nodes that have taken in a child. -/
  grown : List Nat
  /-- The foldings, as pairs of parent and child. -/
  folded : List (Nat × Nat)

namespace Merging

variable {sp : Space} (m : Merging sp)

/-- Look at one child of an attractor: fold it in, or search it later. -/
def visitChild (id child : Nat) : Merging sp :=
  if m.graph.foldable id child then
    { graph := m.graph.absorb id child
      queue := m.queue ++ (m.graph.children child).filter (· != id)
      grown := insertAscending id m.grown
      folded := m.folded ++ [(id, child)] }
  else { m with queue := m.queue ++ [child] }

/-- Look at one node. -/
def visit (id : Nat) : Merging sp :=
  match m.graph.node? id with
  | none => m
  | some n =>
    let children := m.graph.children id
    if n.kind.isAttractor then children.foldl (fun m child ↦ m.visitChild id child) m
    else { m with queue := m.queue ++ children }

/-- Search on, given the nodes already looked at. -/
def run : (fuel : Nat) → (seen : List Nat) → Merging sp → Merging sp
  | 0, _, m => m
  | fuel + 1, seen, m =>
    match nextUnseen? seen m.queue with
    | none => m
    | some (id, queue) => run fuel (id :: seen) (visit { m with queue } id)

end Merging

/-- The search from the initial node. Every round looks at another node of the graph, or at the
initial one. -/
def merging : Merging sp :=
  .run (graph.mentioned.length + 1) [] ⟨graph, [initialId], [], []⟩

/-- Merge chains of attractors. The edges of nodes that have grown get their facts anew if
`refresh` asks for it. -/
def mergeAttractors (refresh : Bool) : Graph sp :=
  let m := graph.merging
  let merged :=
    if refresh && !m.grown.isEmpty then
      m.graph.annotateEdges g fun source target ↦ m.grown.contains source || m.grown.contains target
    else m.graph
  merged.renumber

/-- The foldings by which chains are merged, as pairs of parent and child. -/
def foldings : List (Nat × Nat) := graph.merging.folded

end JusticeViolation.Graph

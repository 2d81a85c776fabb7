import JusticeViolation.Ascending
import JusticeViolation.AssumptionGraph
import JusticeViolation.Fact

/-!
# Justice violation graphs

A graph of sets of states with directed edges. Nodes are numbered, and listed in the order of their
numbers; edges are listed in lexicographic order. No edge leads from a node to itself, and there is
at most one from one node to another.
-/

namespace JusticeViolation

/-- The kind of a node, with what is kept for that kind alone. -/
inductive NodeBody (sp : Space)
  | initial
  | cycle (assumptions : Option (AssumptionGraph sp))
  | attractorFromCycle
  | attractorNotFromCycle

/-- The kind of a node. -/
def NodeBody.kind {sp : Space} : NodeBody sp → NodeKind
  | initial => .initial
  | cycle _ => .cycle
  | attractorFromCycle => .attractorFromCycle
  | attractorNotFromCycle => .attractorNotFromCycle

/-- A node. -/
structure Node (sp : Space) where
  id : Nat
  /-- None for the initial node, and for states from which the system is left stuck at once. -/
  rank : Option Nat
  states : StateSet sp
  /-- The choices to which the environment is committed in these states. -/
  transitions : StateSet sp
  facts : List Fact
  body : NodeBody sp

namespace Node

variable {sp : Space} (n : Node sp)

/-- The kind of a node. -/
def kind : NodeKind := n.body.kind

/-- The assumption graph of a cycle. -/
def assumptions : Option (AssumptionGraph sp) :=
  match n.body with
  | .cycle a => a
  | _ => none

end Node

/-- An edge, with the facts about the states that it carries. -/
structure Edge where
  source : Nat
  target : Nat
  facts : List Fact
deriving DecidableEq, Repr

namespace Edge

/-- Whether an edge touches a node. -/
def touches (e : Edge) (id : Nat) : Bool := e.source == id || e.target == id

end Edge

/-- A justice violation graph. -/
structure Graph (sp : Space) where
  nodes : List (Node sp)
  edges : List Edge

namespace Graph

/-- The number of the initial node. -/
def initialId : Nat := 0

variable {sp : Space}

/-- No nodes. -/
def empty : Graph sp := ⟨[], []⟩

variable (graph : Graph sp)

/-! ## Look-up -/

/-- The node of a number. -/
def node? (id : Nat) : Option (Node sp) := graph.nodes.find? (·.id == id)

/-- Whether there is a node of a number. -/
def contains (id : Nat) : Bool := graph.nodes.any (·.id == id)

/-- The edge between two nodes. -/
def edge? (source target : Nat) : Option Edge :=
  graph.edges.find? fun e ↦ e.source == source && e.target == target

/-- Whether there is an edge between two nodes. -/
def hasEdge (source target : Nat) : Bool :=
  graph.edges.any fun e ↦ e.source == source && e.target == target

/-- The targets of the edges of a node, ascending. -/
def children (id : Nat) : List Nat :=
  (graph.edges.filter fun e ↦ e.source == id).map (·.target)

/-- The sources of the edges to a node, ascending. -/
def parents (id : Nat) : List Nat :=
  (graph.edges.filter fun e ↦ e.target == id).map (·.source)

/-- The numbers of the nodes of a kind. -/
def ofKind (kind : NodeKind) : List Nat :=
  (graph.nodes.filter fun n ↦ n.kind == kind).map (·.id)

/-- The number behind that of the last node. -/
def nextId : Nat :=
  match graph.nodes.getLast? with
  | none => initialId
  | some n => n.id + 1

/-! ## Changes -/

/-- Insert a node where its number belongs, in place of a node of the same number. -/
def insertNode (n : Node sp) : List (Node sp) → List (Node sp)
  | [] => [n]
  | m :: ms =>
    if n.id < m.id then n :: m :: ms
    else if n.id = m.id then n :: ms
    else m :: insertNode n ms

/-- Insert an edge where it belongs, in place of an edge between the same nodes. -/
def insertEdge (e : Edge) : List Edge → List Edge
  | [] => [e]
  | f :: fs =>
    if pairLt (e.source, e.target) (f.source, f.target) then e :: f :: fs
    else if e.source = f.source ∧ e.target = f.target then e :: fs
    else f :: insertEdge e fs

/-- Add a node. -/
def addNode (n : Node sp) : Graph sp := { graph with nodes := insertNode n graph.nodes }

/-- Change every node. -/
def mapNodes (change : Node sp → Node sp) : Graph sp :=
  { graph with nodes := graph.nodes.map change }

/-- Whether an edge can be added: it joins different nodes, and is not there yet. -/
def admits (source target : Nat) : Bool := source != target && !graph.hasEdge source target

/-- Add an edge that can be added. -/
def addEdge (source target : Nat) : Graph sp :=
  if graph.admits source target then
    { graph with edges := insertEdge ⟨source, target, []⟩ graph.edges }
  else graph

/-- Add an edge with facts; an edge that is there keeps the facts that both share. -/
def mergeEdge (e : Edge) : Graph sp :=
  if e.source = e.target then graph
  else
    match graph.edge? e.source e.target with
    | none => { graph with edges := insertEdge e graph.edges }
    | some f =>
      let kept : Edge := { f with facts := f.facts.filter e.facts.contains }
      { graph with edges := insertEdge kept graph.edges }

/-- The edges of a node, in both directions. -/
def edgesOf (id : Nat) : List Edge := graph.edges.filter (·.touches id)

/-- Remove a node with its edges. -/
def removeNode (id : Nat) : Graph sp where
  nodes := graph.nodes.filter (·.id != id)
  edges := graph.edges.filter fun e ↦ !e.touches id

/-- Number the nodes through from 0, in their order. -/
def renumber : Graph sp :=
  let position := fun id ↦ (graph.nodes.findIdx? (·.id == id)).getD id
  { nodes := graph.nodes.map fun n ↦ { n with id := position n.id }
    edges := graph.edges.map fun e ↦
      { e with source := position e.source, target := position e.target } }

end Graph

end JusticeViolation

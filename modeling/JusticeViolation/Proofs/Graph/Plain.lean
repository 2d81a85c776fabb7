import JusticeViolation.Construction

/-!
# Graphs without assumption graphs

Nothing that is done to a graph looks at the assumption graphs of its cycles: neither the search for
steps and facts nor the merging of chains. So it makes no difference whether these are dropped
before or afterwards.
-/

namespace JusticeViolation

variable {sp : Space} {g : Game sp}

/-! ## Nodes -/

/-- The kind of a node alone. -/
def NodeBody.plain : NodeBody sp → NodeBody sp
  | .cycle _ => .cycle none
  | body => body

@[simp] theorem NodeBody.kind_plain (body : NodeBody sp) : body.plain.kind = body.kind := by
  cases body <;> rfl

/-- A node without its assumption graph. -/
def Node.plain (n : Node sp) : Node sp := { n with body := n.body.plain }

@[simp] theorem Node.id_plain (n : Node sp) : n.plain.id = n.id := rfl

@[simp] theorem Node.states_plain (n : Node sp) : n.plain.states = n.states := rfl

@[simp] theorem Node.transitions_plain (n : Node sp) : n.plain.transitions = n.transitions := rfl

@[simp] theorem Node.kind_plain (n : Node sp) : n.plain.kind = n.kind := n.body.kind_plain

namespace Graph

/-- A graph without assumption graphs. -/
def plain (graph : Graph sp) : Graph sp := graph.mapNodes Node.plain

variable {graph : Graph sp}

theorem nodes_plain : graph.plain.nodes = graph.nodes.map Node.plain := rfl

/-! ## Look-up and steps -/

theorem node?_plain (id : Nat) : graph.plain.node? id = (graph.node? id).map Node.plain :=
  List.find?_map ..

theorem nextId_plain : graph.plain.nextId = graph.nextId := by
  unfold nextId
  rw [nodes_plain, List.getLast?_map]
  cases graph.nodes.getLast? with
  | none => rfl
  | some n => rfl

theorem arrivals?_plain (source : Nat) :
    graph.plain.arrivals? g source = graph.arrivals? g source := by
  unfold arrivals?
  rw [node?_plain, Option.map_map]
  rfl

theorem edgeStates?_plain (source target : Nat) :
    graph.plain.edgeStates? g source target = graph.edgeStates? g source target := by
  unfold edgeStates?
  rw [node?_plain, arrivals?_plain]
  cases graph.node? target with
  | none => rfl
  | some n => rfl

theorem edgeFacts_plain (source target : Nat) :
    graph.plain.edgeFacts g source target = graph.edgeFacts g source target := by
  unfold edgeFacts
  rw [edgeStates?_plain]

/-! ## Changes -/

private theorem map_plain_insertNode (n : Node sp) (ms : List (Node sp)) :
    (insertNode n ms).map Node.plain = insertNode n.plain (ms.map Node.plain) := by
  induction ms with
  | nil => rfl
  | cons m ms ih =>
    rw [List.map_cons, insertNode, insertNode, Node.id_plain, Node.id_plain]
    split
    · rfl
    · split
      · rfl
      · rw [List.map_cons, ih]

theorem plain_addNode (n : Node sp) : (graph.addNode n).plain = graph.plain.addNode n.plain := by
  unfold addNode plain mapNodes
  rw [map_plain_insertNode]

theorem plain_addEdge (source target : Nat) :
    (graph.addEdge source target).plain = graph.plain.addEdge source target := by
  unfold addEdge
  rw [show graph.plain.admits source target = graph.admits source target from rfl]
  split <;> rfl

theorem plain_mergeEdge (e : Edge) : (graph.mergeEdge e).plain = graph.plain.mergeEdge e := by
  unfold mergeEdge
  rw [show graph.plain.edge? e.source e.target = graph.edge? e.source e.target from rfl]
  split
  · rfl
  · split <;> rfl

theorem plain_annotateEdges (touched : Nat → Nat → Bool) :
    (graph.annotateEdges g touched).plain = graph.plain.annotateEdges g touched := by
  unfold annotateEdges
  simp only [edgeFacts_plain]
  rfl

theorem plain_annotate : (graph.annotate g).plain = graph.plain.annotate g := by
  unfold annotate
  rw [plain_annotateEdges]
  unfold plain mapNodes
  rw [List.map_map, List.map_map]
  rfl

theorem plain_renumber : graph.renumber.plain = graph.plain.renumber := by
  have hposition : ∀ id, graph.plain.nodes.findIdx? (·.id == id)
      = graph.nodes.findIdx? (·.id == id) := fun id ↦ by
    rw [nodes_plain, List.findIdx?_map]
    rfl
  unfold renumber
  simp only [hposition]
  unfold plain mapNodes
  rw [List.map_map, List.map_map]
  rfl

/-! ## Merging -/

theorem mentioned_plain : graph.plain.mentioned = graph.mentioned := by
  unfold mentioned
  rw [nodes_plain, List.map_map]
  rfl

private theorem reachFrom_plain (fuel : Nat) (queue reached : List Nat) :
    graph.plain.reachFrom fuel queue reached = graph.reachFrom fuel queue reached := by
  induction fuel generalizing queue reached with
  | zero => rfl
  | succ fuel ih =>
    rw [reachFrom, reachFrom]
    split
    · rfl
    · exact ih _ _

private theorem countFrom_plain (fuel : Nat) (ready : List Nat) (counts : List PathCount) :
    graph.plain.countFrom fuel ready counts = graph.countFrom fuel ready counts := by
  induction fuel generalizing ready counts with
  | zero => rfl
  | succ fuel ih =>
    cases ready with
    | nil => rfl
    | cons id ready => exact ih _ _

theorem pathCount_plain (source target : Nat) :
    graph.plain.pathCount source target = graph.pathCount source target := by
  unfold pathCount reachedFrom
  rw [mentioned_plain, reachFrom_plain]
  simp only [countFrom_plain]
  rfl

theorem foldable_plain (parent child : Nat) :
    graph.plain.foldable parent child = graph.foldable parent child := by
  unfold foldable
  rw [node?_plain, pathCount_plain]
  cases graph.node? child with
  | none => rfl
  | some n => simp only [Option.map_some, Option.any_some, Node.kind_plain]

theorem plain_removeNode (id : Nat) : (graph.removeNode id).plain = graph.plain.removeNode id := by
  unfold removeNode plain mapNodes
  rw [List.filter_map]
  rfl

private theorem plain_mergeFold (parent child : Nat) (es : List Edge) (rest : Graph sp) :
    (es.foldl (fun rest e ↦ rest.mergeEdge (reroute parent child e)) rest).plain
      = es.foldl (fun rest e ↦ rest.mergeEdge (reroute parent child e)) rest.plain := by
  induction es generalizing rest with
  | nil => rfl
  | cons e es ih => rw [List.foldl_cons, List.foldl_cons, ih, plain_mergeEdge]

theorem plain_absorb (parent child : Nat) :
    (graph.absorb parent child).plain = graph.plain.absorb parent child := by
  unfold absorb
  rw [node?_plain]
  cases graph.node? child with
  | none => rfl
  | some m =>
    have hunite : ∀ n : Node sp, (if n.id = parent then unite n m else n).plain
        = if n.plain.id = parent then unite n.plain m.plain else n.plain := fun n ↦ by
      rw [Node.id_plain]
      split <;> rfl
    rw [Option.map_some]
    dsimp only
    rw [plain_mergeFold, ← plain_removeNode]
    unfold plain mapNodes
    rw [List.map_map, List.map_map]
    simp only [Function.comp_def, hunite]
    rfl

namespace Merging

/-- A search in the graph without assumption graphs. -/
def plain (m : Merging sp) : Merging sp := { m with graph := m.graph.plain }

variable {m : Merging sp}

theorem plain_visitChild (id child : Nat) :
    (m.visitChild id child).plain = m.plain.visitChild id child := by
  unfold visitChild plain
  dsimp only
  rw [foldable_plain]
  split
  · rw [← plain_absorb]
    rfl
  · rfl

private theorem plain_visitChildren (id : Nat) (children : List Nat) (m : Merging sp) :
    (children.foldl (fun m child ↦ m.visitChild id child) m).plain
      = children.foldl (fun m child ↦ m.visitChild id child) m.plain := by
  induction children generalizing m with
  | nil => rfl
  | cons child children ih => rw [List.foldl_cons, List.foldl_cons, ih, plain_visitChild]

theorem plain_visit (id : Nat) : (m.visit id).plain = m.plain.visit id := by
  unfold visit
  rw [show m.plain.graph = m.graph.plain from rfl, node?_plain]
  cases m.graph.node? id with
  | none => rfl
  | some n =>
    rw [Option.map_some]
    dsimp only
    rw [Node.kind_plain]
    split
    · exact plain_visitChildren ..
    · rfl

theorem plain_run (fuel : Nat) (seen : List Nat) (m : Merging sp) :
    (run fuel seen m).plain = run fuel seen m.plain := by
  induction fuel generalizing seen m with
  | zero => rfl
  | succ fuel ih =>
    rw [run, run, show m.plain.queue = m.queue from rfl]
    split
    · rfl
    · rw [ih, plain_visit]
      rfl

end Merging

theorem plain_merging : graph.merging.plain = graph.plain.merging := by
  unfold merging
  rw [Merging.plain_run, mentioned_plain]
  rfl

theorem plain_mergeAttractors (refresh : Bool) :
    (graph.mergeAttractors g refresh).plain = graph.plain.mergeAttractors g refresh := by
  unfold mergeAttractors
  rw [← plain_merging]
  dsimp only
  rw [plain_renumber, show graph.merging.plain.grown = graph.merging.grown from rfl]
  split
  · rw [plain_annotateEdges]
    rfl
  · rfl

/-- **What is done to a graph in the end does not look at assumption graphs.** -/
theorem plain_finish (o : Options) (b : Bool) :
    (g.finish o graph).1.plain = (g.finish { o with assumptionGraphs := b } graph.plain).1 := by
  have hannotated : (if o.invariants then graph.annotate g else graph).plain
      = if o.invariants then graph.plain.annotate g else graph.plain := by
    split
    · exact plain_annotate
    · rfl
  unfold Game.finish
  dsimp only
  rw [← hannotated]
  split
  · exact plain_mergeAttractors _
  · rfl

end Graph

end JusticeViolation

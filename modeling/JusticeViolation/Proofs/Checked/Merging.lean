import JusticeViolation.Proofs.Checked.Basic
import JusticeViolation.Proofs.Graph.Annotation

/-!
# Merging in range

A count of paths takes one from the edges left to follow to a child, whenever it deals with a parent
of it. It stays above zero, for it counts the edges from all parents that are still to be dealt
with, and none is dealt with twice. Numbering through looks up the new numbers of the ends of every
edge; these are nodes, since folding one node into another takes along all edges of it.
-/

namespace JusticeViolation.Graph

open Checked

variable {sp : Space} (g : Game sp) (graph : Graph sp)

/-! ## Finding facts -/

/-- The facts about the states of an edge. -/
def checkedEdgeFacts (source target : Nat) : Checked (List Fact) :=
  match graph.edgeStates? g source target with
  | none => return []
  | some s => s.checkedFacts [g.marker]

/-- Find the facts of the edges that `touched` selects. -/
def checkedAnnotateEdges (touched : Nat → Nat → Bool) : Checked (Graph sp) := do
  let edges ← graph.edges.mapM fun e ↦
    if touched e.source e.target then do
      let facts ← graph.checkedEdgeFacts g e.source e.target
      return { e with facts }
    else return e
  return { graph with edges }

/-- Find the facts of all nodes and edges. -/
def checkedAnnotate : Checked (Graph sp) := do
  let nodes ← graph.nodes.mapM fun n ↦ do
    let facts ← (g.strip n.states).checkedFacts [g.marker]
    return { n with facts }
  checkedAnnotateEdges g { graph with nodes } fun _ _ ↦ true

/-! ## Counting paths -/

/-- Follow the edges from a node with `here` paths to its children. -/
def checkedFollowEdges (here : Nat) (children : List Nat) (counts : List PathCount) :
    Checked (List PathCount) :=
  counts.mapM fun c ↦
    if c.id ∈ children then do
      let pending ← minus c.pending 1
      return { c with pending, paths := min (c.paths + here) 2 }
    else return c

/-- Count on from the nodes in `ready`, whose counts are final. -/
def checkedCountFrom : (fuel : Nat) → (ready : List Nat) → List PathCount →
    Checked (List PathCount)
  | 0, _, _ => .error .unfinished
  | _, [], counts => return counts
  | fuel + 1, id :: ready, counts => do
    let here := ((counts.find? (·.id == id)).map (·.paths)).getD 0
    let children := graph.children id
    let counts ← checkedFollowEdges here children counts
    let fresh := children.filter fun child ↦
      counts.any fun c ↦ c.id == child && c.pending == 0
    checkedCountFrom fuel (ready ++ fresh) counts

/-- The number of different paths from one node to another, watched for `more` rounds beyond the
bound. -/
def checkedPathCount (more source target : Nat) : Checked Nat :=
  if target ∉ graph.reachedFrom source then return 0
  else do
    let counts ← graph.checkedCountFrom ((graph.reachedFrom source).length + more + 1)
      (graph.startReady source) (graph.startCounts source)
    match counts.find? (·.id == target) with
    | none => return 0
    | some c => return if 0 < c.pending then 2 else c.paths

/-! ## The search -/

/-- Whether a child can be folded into an attractor. -/
def checkedFoldable (more parent child : Nat) : Checked Bool :=
  if (graph.node? child).any (·.kind.isAttractor) then do
    let paths ← graph.checkedPathCount more parent child
    return paths ≤ 1
  else return false

namespace Merging

variable (more : Nat) (m : Merging sp)

/-- Look at one child of an attractor. -/
def checkedVisitChild (id child : Nat) : Checked (Merging sp) := do
  if ← m.graph.checkedFoldable more id child then
    return {
      graph := m.graph.absorb id child
      queue := m.queue ++ (m.graph.children child).filter (· != id)
      grown := insertAscending id m.grown
      folded := m.folded ++ [(id, child)] }
  else return { m with queue := m.queue ++ [child] }

/-- Look at one node. -/
def checkedVisit (id : Nat) : Checked (Merging sp) :=
  match m.graph.node? id with
  | none => return m
  | some n =>
    let children := m.graph.children id
    if n.kind.isAttractor then
      children.foldlM (fun m child ↦ checkedVisitChild more m id child) m
    else return { m with queue := m.queue ++ children }

/-- Search on, given the nodes already looked at. -/
def checkedRun : (fuel : Nat) → (seen : List Nat) → Merging sp → Checked (Merging sp)
  | 0, _, _ => .error .unfinished
  | fuel + 1, seen, m =>
    match nextUnseen? seen m.queue with
    | none => return m
    | some next => do
      let m ← checkedVisit more { m with queue := next.2 } next.1
      checkedRun fuel (next.1 :: seen) m

end Merging

/-- The search from the initial node, watched for `more` rounds beyond the bounds. -/
def checkedMerging (more : Nat) : Checked (Merging sp) :=
  Merging.checkedRun more (graph.mentioned.length + 1 + more) [] ⟨graph, [initialId], [], []⟩

/-! ## Numbering through -/

/-- The new number of a node. -/
def checkedPosition (id : Nat) : Checked Nat := found (graph.nodes.findIdx? (·.id == id))

/-- Number the nodes through from 0, in their order. -/
def checkedRenumber : Checked (Graph sp) := do
  let nodes ← graph.nodes.mapM fun n ↦ do
    let id ← graph.checkedPosition n.id
    return { n with id }
  let edges ← graph.edges.mapM fun e ↦ do
    let source ← graph.checkedPosition e.source
    let target ← graph.checkedPosition e.target
    return { e with source, target }
  return { nodes, edges }

/-- Merge chains of attractors. With the merged graph come the foldings, as pairs of parent and
child. -/
def checkedMergeAttractors (more : Nat) (refresh : Bool) :
    Checked (Graph sp × List (Nat × Nat)) := do
  let m ← graph.checkedMerging more
  let merged ←
    if refresh && !m.grown.isEmpty then
      m.graph.checkedAnnotateEdges g fun source target ↦
        m.grown.contains source || m.grown.contains target
    else pure m.graph
  let merged ← merged.checkedRenumber
  return (merged, m.folded)

/-! ## Facts are found in range -/

variable {g graph}

theorem checkedEdgeFacts_eq (source target : Nat) :
    graph.checkedEdgeFacts g source target = .ok (graph.edgeFacts g source target) := by
  rw [checkedEdgeFacts, edgeFacts]
  cases graph.edgeStates? g source target with
  | none => rfl
  | some s => exact s.checkedFacts_eq _

theorem checkedAnnotateEdges_eq (touched : Nat → Nat → Bool) :
    graph.checkedAnnotateEdges g touched = .ok (graph.annotateEdges g touched) := by
  rw [checkedAnnotateEdges, mapM_eq_ok (h := fun e ↦ if touched e.source e.target then
    { e with facts := graph.edgeFacts g e.source e.target } else e) fun e _ ↦ ?_]
  · rfl
  · split
    · rw [checkedEdgeFacts_eq]
      rfl
    · rfl

/-- **Facts are found in range**, in every graph. -/
theorem checkedAnnotate_eq : graph.checkedAnnotate g = .ok (graph.annotate g) := by
  rw [checkedAnnotate, mapM_eq_ok fun n _ ↦ by rw [StateSet.checkedFacts_eq, ok_bind, pure_eq_ok],
    ok_bind, checkedAnnotateEdges_eq]
  rfl

/-! ## Paths are counted in range -/

section Counting

variable {source : Nat} {reached done ready : List Nat} {counts : List PathCount} {id : Nat}

/-- An edge that is followed was left to follow. -/
theorem checkedFollowEdges_eq (h : graph.Counting reached done (id :: ready) counts) (here : Nat) :
    checkedFollowEdges here (graph.children id) counts =
      .ok (followEdges here (graph.children id) counts) := by
  have hnew : id ∉ done := fun hd ↦
    (List.nodup_cons.mp (List.nodup_middle.mp h.nodup)).1 (List.mem_append_left _ hd)
  have hreached := (h.settled id (List.mem_append_right _ List.mem_cons_self)).1
  refine mapM_eq_ok fun c hc ↦ ?_
  split
  · rename_i hchild
    have hpos : 1 ≤ c.pending := by
      rw [h.pending c hc, pendingEdges_eq hreached hnew]
      exact Nat.le_add_right_of_le (List.count_pos_iff.mpr hchild)
    rw [minus_of_le hpos]
    rfl
  · rfl

theorem checkedCountFrom_eq (hs : graph.Sorted) (more : Nat) {fuel : Nat}
    (h : graph.Counting reached done ready counts)
    (hfuel : reached.length ≤ fuel + done.length) :
    graph.checkedCountFrom (fuel + more + 1) ready counts =
      .ok (graph.countFrom fuel ready counts) := by
  induction fuel generalizing done ready counts with
  | zero =>
    have hle := h.length_le
    obtain rfl : ready = [] := List.eq_nil_of_length_eq_zero (by omega)
    rfl
  | succ fuel ih =>
    cases ready with
    | nil => rfl
    | cons id ready =>
      rw [checkedCountFrom, checkedFollowEdges_eq h, ok_bind, Nat.succ_add, countFrom]
      refine ih (h.step hs _) ?_
      rw [List.length_cons]
      omega

/-- **Paths are counted in range**, for however many rounds they are watched. -/
theorem checkedPathCount_eq (hs : graph.Sorted) (more source target : Nat) :
    graph.checkedPathCount more source target = .ok (graph.pathCount source target) := by
  have hcounts : graph.checkedCountFrom ((graph.reachedFrom source).length + more + 1)
      (graph.startReady source) (graph.startCounts source) = .ok (graph.finalCounts source) :=
    checkedCountFrom_eq hs more (counting_start graph source) (Nat.le_add_right _ _)
  rw [checkedPathCount, (countsEnd hs source).2.2 target]
  split
  · rfl
  · rw [hcounts, ok_bind]
    cases (graph.finalCounts source).find? (·.id == target) <;> rfl

end Counting

/-! ## Chains are found in range -/

theorem checkedFoldable_eq (hs : graph.Sorted) (more parent child : Nat) :
    graph.checkedFoldable more parent child = .ok (graph.foldable parent child) := by
  rw [checkedFoldable, foldable, checkedPathCount_eq hs]
  split
  · rename_i hattractor
    rw [hattractor]
    rfl
  · rename_i hother
    rw [Bool.not_eq_true] at hother
    rw [hother]
    rfl

namespace Merging

variable {s : Merging sp} {id child : Nat}

theorem checkedVisitChild_eq (hs : s.graph.Sorted) (more id child : Nat) :
    s.checkedVisitChild more id child = .ok (s.visitChild id child) := by
  rw [checkedVisitChild, checkedFoldable_eq hs, ok_bind, visitChild]
  split <;> rfl

variable (hr : graph.Rooted) (hs : graph.Sorted) (more : Nat)

include hr hs

private theorem checkedVisitChildren_eq {children : List Nat} (h : Stage graph s)
    (hid : s.Looks id)
    (hchildren : ∀ child ∈ children, (∃ m ∈ graph.nodes, m.id = child) ∧ id ≠ child) :
    children.foldlM (fun s child ↦ checkedVisitChild more s id child) s =
      .ok (children.foldl (fun s child ↦ s.visitChild id child) s) := by
  induction children generalizing s with
  | nil => rfl
  | cons child children ih =>
    obtain ⟨hchild, hne⟩ := hchildren child List.mem_cons_self
    obtain ⟨hstage, hid'⟩ := h.visitChild hr hid hchild hne
    rw [List.foldlM_cons, checkedVisitChild_eq (h.sorted hs), ok_bind, List.foldl_cons]
    exact ih hstage hid' fun c hc ↦ hchildren c (List.mem_cons_of_mem _ hc)

theorem checkedVisit_eq (h : Stage graph s) (id : Nat) :
    s.checkedVisit more id = .ok (s.visit id) := by
  rw [checkedVisit, visit]
  cases hnode : s.graph.node? id with
  | none => rfl
  | some n =>
    obtain ⟨hn, hid⟩ := mem_of_node?_eq_some hnode
    dsimp only
    split
    · rename_i hkind
      exact checkedVisitChildren_eq hr hs more h ⟨n, hn, hid, hkind⟩
        fun _ hchild ↦ h.of_mem_children hchild
    · rfl

theorem checkedRun_eq (extra : Nat) {fuel : Nat} {seen : List Nat} (h : Stage graph s)
    (hfuel : unseen (graph.nodes.map (·.id)) seen < fuel) :
    checkedRun more (fuel + extra) seen s = .ok (run fuel seen s) := by
  induction fuel generalizing seen s with
  | zero => exact absurd hfuel (Nat.not_lt_zero _)
  | succ fuel ih =>
    rw [Nat.succ_add, checkedRun, run]
    cases hnext : nextUnseen? seen s.queue with
    | none => rfl
    | some next =>
      obtain ⟨hstage, m, hm, hid⟩ := h.dequeue hnext
      obtain ⟨-, hnew, -⟩ := mem_of_nextUnseen? hnext
      have hlt : unseen (graph.nodes.map (·.id)) (next.1 :: seen) < _ :=
        unseen_lt (List.mem_map.mpr ⟨m, hm, hid⟩) hnew fun k ↦ List.mem_cons
      dsimp only
      rw [checkedVisit_eq hr hs more hstage, ok_bind]
      exact ih (hstage.visit hr next.1) (hlt.trans_le (Nat.lt_succ_iff.mp hfuel))

end Merging

/-- **Chains are found in range**, for however many rounds the search is watched. -/
theorem checkedMerging_eq (hr : graph.Rooted) (hs : graph.Sorted) (more : Nat) :
    graph.checkedMerging more = .ok graph.merging := by
  refine Merging.checkedRun_eq hr hs more more (Merging.stage_start hr) ?_
  have hle : unseen (graph.nodes.map (·.id)) [] ≤ (graph.nodes.map (·.id)).length :=
    List.countP_le_length
  rw [mentioned, List.length_append]
  omega

/-! ## Nodes are numbered in range -/

theorem checkedPosition_eq {id : Nat} (h : ∃ n ∈ graph.nodes, n.id = id) :
    graph.checkedPosition id = .ok (graph.position id) := by
  rw [checkedPosition, position]
  cases hfind : graph.nodes.findIdx? (·.id == id) with
  | some k => rfl
  | none =>
    obtain ⟨n, hn, hid⟩ := h
    have hother := List.findIdx?_eq_none_iff.mp hfind n hn
    exact absurd (beq_iff_eq.mpr hid) (Bool.eq_false_iff.mp hother)

/-- **Nodes are numbered through in range**, where edges join nodes. -/
theorem checkedRenumber_eq (hr : graph.Rooted) : graph.checkedRenumber = .ok graph.renumber := by
  have hnode : ∀ n ∈ graph.nodes, (do
      let id ← graph.checkedPosition n.id
      return { n with id } : Checked (Node sp)) = .ok { n with id := graph.position n.id } :=
    fun n hn ↦ by
      rw [checkedPosition_eq ⟨n, hn, rfl⟩]
      rfl
  have hedge : ∀ e ∈ graph.edges, (do
      let source ← graph.checkedPosition e.source
      let target ← graph.checkedPosition e.target
      return { e with source, target } : Checked Edge) = .ok { e with
        source := graph.position e.source, target := graph.position e.target } := fun e he ↦ by
    obtain ⟨hsource, htarget, -⟩ := hr.ends e.source e.target ⟨e, he, rfl, rfl⟩
    rw [checkedPosition_eq hsource, ok_bind, checkedPosition_eq htarget]
    rfl
  rw [checkedRenumber, mapM_eq_ok hnode, ok_bind, mapM_eq_ok hedge]
  rfl

/-- **Merging is in range**, for however many rounds it is watched. -/
theorem checkedMergeAttractors_eq (hr : graph.Rooted) (hs : graph.Sorted) (more : Nat)
    (refresh : Bool) :
    graph.checkedMergeAttractors g more refresh =
      .ok (graph.mergeAttractors g refresh, graph.foldings) := by
  have hrooted := (stage_merging hr).rooted
  rw [checkedMergeAttractors, checkedMerging_eq hr hs, ok_bind, mergeAttractors]
  dsimp only
  split
  · rw [checkedAnnotateEdges_eq, ok_bind, checkedRenumber_eq (hrooted.annotateEdges _)]
    rfl
  · rw [pure_eq_ok, ok_bind, checkedRenumber_eq hrooted]
    rfl

end JusticeViolation.Graph

import JusticeViolation.Proofs.Construction.Acyclicity
import JusticeViolation.Proofs.Decomposition.Emission
import JusticeViolation.Proofs.Graph.Annotation

/-!
# Facts are found once

A graph that is built with its facts has the facts of all its nodes and edges. They are found before
chains are merged, and merging keeps a graph annotated if no attractor is empty. Parts of a rank
that are empty get no node, and a deadlock graph is only made for some stuck state.
-/

namespace JusticeViolation

variable {sp : Space} {g : Game sp} {o : Options} {graph graph' : Graph sp}

/-! ## Nodes with a state -/

namespace Graph

/-- Every node but the initial one holds a state. -/
def Occupied (graph : Graph sp) : Prop := ∀ n ∈ graph.nodes, n.kind ≠ .initial → ∃ i, i ∈ n.states

namespace Occupied

variable (h : graph.Occupied)

include h

theorem of_nodes_eq (hnodes : graph'.nodes = graph.nodes) : graph'.Occupied := fun n hn ↦
  h n (hnodes ▸ hn)

theorem addNode {n : Node sp} (hn : n.kind ≠ .initial → ∃ i, i ∈ n.states) :
    (graph.addNode n).Occupied := fun k hk hkind ↦ by
  rcases mem_insertNode hk with rfl | hk
  · exact hn hkind
  · exact h k hk hkind

/-- New facts do not empty a node. -/
theorem annotate : (graph.annotate g).Occupied := fun n' hn' hkind ↦ by
  obtain ⟨n, hn, rfl⟩ := List.mem_map.mp hn'
  exact h n hn hkind

end Occupied

/-- The initial node alone holds whatever it holds. -/
theorem occupied_initial {n : Node sp} (hkind : n.kind = .initial) :
    (empty.addNode n).Occupied := by
  have hempty : (empty : Graph sp).Occupied := fun _ hn ↦ absurd hn List.not_mem_nil
  exact hempty.addNode fun hne ↦ absurd hkind hne

end Graph

namespace Decomposition

variable {ranking : Ranking sp} {d : Decomposition sp}

/-- A node is emitted for a part that is not empty. -/
theorem occupied_of_decompose (h : g.decompose o ranking = .ok d) : d.graph.Occupied :=
  fun n hn hkind ↦ by
    rcases of_mem_decompose h hn with rfl | hemitted
    · exact absurd rfl hkind
    · exact hemitted.exists_mem

end Decomposition

namespace Game

/-- **A bare graph has no empty nodes** beside the initial one. -/
theorem occupied_of_bareGraph {bare : Graph sp} (h : (g.bareGraph o).result = .ok bare) :
    bare.Occupied := by
  rcases cases_of_bareGraph h with hdead | ⟨ranking, d, -, hdec, rfl⟩
  · unfold deadlockGraph? at hdead
    dsimp only at hdead
    split at hdead
    · cases hdead
    · rename_i hne
      refine Option.some.inj hdead ▸ Graph.Occupied.of_nodes_eq ?_ (Graph.nodes_addEdge _ _)
      exact (Graph.occupied_initial rfl).addNode fun _ ↦
        StateSet.isEmpty_eq_false_iff.mp (Bool.not_eq_true _ ▸ hne)
  · exact Decomposition.occupied_of_decompose hdec

/-! ## The built graph -/

/-- Finishing a graph leaves nothing to be found. -/
theorem annotated_finish {bare : Graph sp} (hs : g.Shaped) (hn : bare.Numbered)
    (hocc : bare.Occupied) (hi : o.invariants = true) : (g.finish o bare).1.Annotated g := by
  have hannotated := Graph.annotated_annotate (g := g) bare
  have hnumbered := hn.annotate (g := g)
  unfold finish
  dsimp only
  rw [hi, if_pos rfl]
  split
  · refine hannotated.mergeAttractors hnumbered.rooted hnumbered.sorted hs fun n hn hkind ↦ ?_
    refine hocc.annotate n hn fun hinitial ↦ ?_
    rw [hinitial] at hkind
    cases hkind
  · exact hannotated

/-- **Finding facts again changes nothing** in a graph that is built with its facts, whether chains
are merged or not: every node and every edge has the facts of its states, in their order. -/
theorem annotate_of_build (hb : g.build o = .ok graph) (hi : o.invariants = true) :
    graph.annotate g = graph := by
  obtain ⟨bare, hbare, rfl⟩ := exists_result_of_build hb
  exact (annotated_finish (shaped_of_shapeFault?_eq_none (shapeFault?_of_build hb))
    (numbered_of_bareGraph hbare) (occupied_of_bareGraph hbare) hi).annotate_eq

/-- In a flight of stairs two descents are merged, and keep the one fact that they share. -/
theorem annotate_flight : ∃ graph, flight.build { mergeAttractors := true } = .ok graph ∧
    graph.nodes.map (·.facts) = [[⟨"e", "true"⟩, ⟨"s", "true"⟩], [⟨"s", "true"⟩],
      [⟨"s", "false"⟩]] ∧
    graph.edges.map (·.facts) = [[⟨"e", "true"⟩, ⟨"s", "true"⟩], [⟨"e", "false"⟩,
      ⟨"s", "false"⟩]] ∧
    graph.annotate flight = graph := by
  obtain ⟨graph, hb, hfacts⟩ := exists_of_any_build (g := flight) (o := { mergeAttractors := true })
    (p := fun graph ↦ decide (graph.nodes.map (·.facts) = [[⟨"e", "true"⟩, ⟨"s", "true"⟩],
        [⟨"s", "true"⟩], [⟨"s", "false"⟩]] ∧
      graph.edges.map (·.facts) = [[⟨"e", "true"⟩, ⟨"s", "true"⟩], [⟨"e", "false"⟩,
        ⟨"s", "false"⟩]])) (by decide +kernel)
  obtain ⟨hnodes, hedges⟩ := of_decide_eq_true hfacts
  exact ⟨graph, hb, hnodes, hedges, annotate_of_build hb rfl⟩

end Game

end JusticeViolation

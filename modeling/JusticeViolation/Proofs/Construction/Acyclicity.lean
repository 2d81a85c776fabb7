import JusticeViolation.Proofs.Construction.Disjointness
import JusticeViolation.Proofs.Decomposition.Numbering
import JusticeViolation.Proofs.Graph.Contraction

/-!
# The graph is acyclic

A bare graph has its nodes numbered from 0 on, and its edges lead from lower to higher numbers.
Finding facts changes neither. Merging chains does away with the order of the numbers, since what
led to a child leads to its parent afterwards; but it closes no circle, and numbers the nodes
through again. The initial node is never merged, so nothing leads to it.
-/

namespace JusticeViolation

variable {sp : Space} {g : Game sp} {o : Options} {graph : Graph sp}

namespace Graph

theorem Numbered.acyclic (h : graph.Numbered) : graph.Acyclic := acyclic_of_lt h.ascends

/-- Facts do not decide how a graph is numbered. -/
theorem Numbered.annotate (h : graph.Numbered) : (graph.annotate g).Numbered where
  toWellFormed := h.toWellFormed.annotate
  ids := by
    have hids : (graph.annotate g).nodes.map (·.id) = graph.nodes.map (·.id) := List.map_map
    have hlength : (graph.annotate g).nodes.length = graph.nodes.length := List.length_map _
    rw [hids, hlength]
    exact h.ids
  sorted := (h.sorted.mapNodes _).annotateEdges _
  ascends := fun a b hab ↦ h.ascends a b (joins_annotate.mp hab)

theorem Numbered.annotated (h : graph.Numbered) (o : Options) :
    (if o.invariants then graph.annotate g else graph).Numbered := by
  split
  · exact h.annotate
  · exact h

/-- **What finishing leaves**: numbers from 0 on, and no circle. -/
theorem Numbered.finish (h : graph.Numbered) (o : Options) :
    (g.finish o graph).1.nodes.map (·.id) = List.range (g.finish o graph).1.nodes.length ∧
      (g.finish o graph).1.Acyclic := by
  have hannotated := h.annotated (g := g) o
  unfold Game.finish
  dsimp only
  split
  · have hrooted := hannotated.toWellFormed.rooted
    obtain ⟨-, -, hids⟩ := exists_quotient_mergeAttractors (g := g) hrooted o.invariants
    exact ⟨hids, acyclic_mergeAttractors hrooted hannotated.sorted hannotated.acyclic _⟩
  · exact ⟨hannotated.ids, hannotated.acyclic⟩

end Graph

namespace Game

theorem numbered_of_deadlockGraph? (h : g.deadlockGraph? = some graph) : graph.Numbered := by
  unfold deadlockGraph? at h
  dsimp only at h
  split at h
  · cases h
  · generalize hinitial : (⟨Graph.initialId, none, g.initial, ∅, [], .initial⟩ : Node sp) = initial
      at h
    generalize hstuck : (⟨1, none, g.domain (g.deadlocking ∩ g.initial),
      g.determinize (g.deadlocking ∩ g.initial), [], .attractorFromCycle⟩ : Node sp) = stuck at h
    have hid : initial.id = Graph.initialId := by rw [← hinitial]
    have hid' : stuck.id = 1 := by rw [← hstuck]
    have hone := Graph.numbered_initial hid (by rw [← hinitial]; rfl)
    have hnext : stuck.id = (Graph.empty.addNode initial).nextId := hid'.trans hone.nextId_eq.symm
    have htwo := hone.addNode hnext (by rw [← hstuck]; exact fun heq ↦ by cases heq)
    have hlength : ((Graph.empty.addNode initial).addNode stuck).nodes.length = 2 := by
      rw [hone.nodes_addNode hnext]
      rfl
    exact Option.some.inj h ▸ htwo.addEdge Nat.one_pos (hlength ▸ Nat.one_lt_two)

theorem numbered_of_bareGraph {bare : Graph sp} (h : (g.bareGraph o).result = .ok bare) :
    bare.Numbered := by
  rcases cases_of_bareGraph h with hdead | ⟨ranking, d, -, hdec, rfl⟩
  · exact numbered_of_deadlockGraph? hdead
  · exact (Decomposition.linked_of_decompose hdec).numbered

/-- **The graph is acyclic.** Its nodes have the numbers from 0 on, and node 0 is the only initial
one; nothing leads to it. Edges join different nodes of the graph, and do not lead back. -/
theorem acyclic_of_build (hb : g.build o = .ok graph) :
    graph.nodes.map (·.id) = List.range graph.nodes.length ∧
      (∃ n ∈ graph.nodes, n.id = Graph.initialId) ∧
      (∀ n ∈ graph.nodes, n.kind = .initial ↔ n.id = Graph.initialId) ∧
      (∀ a, ¬graph.Joins a Graph.initialId) ∧
      (∀ a b, graph.Joins a b →
        (∃ n ∈ graph.nodes, n.id = a) ∧ (∃ n ∈ graph.nodes, n.id = b) ∧ a ≠ b) ∧
      graph.Acyclic := by
  obtain ⟨bare, hbare, rfl⟩ := exists_result_of_build hb
  have hnumbered := numbered_of_bareGraph hbare
  obtain ⟨hids, hacyclic⟩ := hnumbered.finish (g := g) o
  have hwf := (Graph.foldsTo_finish (g := g) hnumbered.toWellFormed o).1
  obtain ⟨f, hf, hjoins⟩ := Graph.exists_folds_finish (g := g) hnumbered.toWellFormed o
  refine ⟨hids, hwf.root, hwf.initial_iff, fun a ha ↦ ?_, hwf.ends, hacyclic⟩
  -- an edge to the initial node would come from one to a number below 0
  obtain ⟨-, a', b', hab, -, hb⟩ := hjoins _ _ ha
  obtain ⟨-, ⟨m, hm, rfl⟩, -⟩ := hnumbered.ends a' b' hab
  have hlt := hnumbered.ascends _ _ hab
  rw [(hf.root m hm).mp hb] at hlt
  exact Nat.not_lt_zero _ hlt

/-- In a flight of stairs the descents of two ranks are merged, and lead to the cycle alone. -/
theorem acyclic_flight : ∃ graph, flight.build { mergeAttractors := true } = .ok graph ∧
    graph.nodes.map (·.id) = [0, 1, 2] ∧ graph.Joins 1 2 ∧ (∀ a, ¬graph.Joins a 0) ∧
    graph.Acyclic := by
  obtain ⟨graph, hb, hany⟩ := exists_of_any_build (g := flight) (o := { mergeAttractors := true })
    (p := fun graph ↦ decide (graph.nodes.length = 3 ∧ graph.Joins 1 2)) (by decide +kernel)
  obtain ⟨hlength, hjoins⟩ := of_decide_eq_true hany
  obtain ⟨hids, -, -, hroot, -, hacyclic⟩ := acyclic_of_build hb
  rw [hlength] at hids
  exact ⟨graph, hb, hids, hjoins, hroot, hacyclic⟩

end Game

end JusticeViolation

import JusticeViolation.Proofs.Decomposition.Run
import JusticeViolation.Proofs.Graph.Fold

/-!
# Where a graph comes from

A graph that is built folds a bare graph, which is either that of a deadlock or that of a finished
decomposition. So a property of graphs that folding keeps has to be shown of these two alone.
-/

namespace JusticeViolation.Game

variable {sp : Space} {g : Game sp} {o : Options} {graph : Graph sp}

/-! ## Deadlocks -/

/-- The graph of a deadlock: the initial node, and one of initial states in which the environment
can leave the system stuck. -/
structure Deadlock (g : Game sp) (graph : Graph sp) : Prop where
  wellFormed : graph.WellFormed
  initial_eq : ∀ n ∈ graph.nodes, n.id = Graph.initialId → n.states = g.initial ∧ n.transitions = ∅
  stuck : ∀ n ∈ graph.nodes, n.id ≠ Graph.initialId →
    n.states = g.domain (g.deadlocking ∩ g.initial) ∧
      n.transitions = g.determinize (g.deadlocking ∩ g.initial) ∧ n.kind = .attractorFromCycle
  exists_stuck : ∃ n ∈ graph.nodes, n.id ≠ Graph.initialId
  unique : ∀ n ∈ graph.nodes, ∀ m ∈ graph.nodes, n.id ≠ Graph.initialId →
    m.id ≠ Graph.initialId → n = m
  joined : ∀ n ∈ graph.nodes, n.id ≠ Graph.initialId → graph.Joins Graph.initialId n.id

/-- Beside the initial node there are no others than those of stuck states. -/
theorem Deadlock.kind_eq (h : g.Deadlock graph) {n : Node sp} (hn : n ∈ graph.nodes)
    (hkind : n.kind ≠ .initial) : n.kind = .attractorFromCycle :=
  (h.stuck n hn (h.wellFormed.id_ne_initialId hn hkind)).2.2

theorem Deadlock.rooted (h : g.Deadlock graph) :
    ∃ n ∈ graph.nodes, graph.Joins Graph.initialId n.id := by
  obtain ⟨n, hn, h0⟩ := h.exists_stuck
  exact ⟨n, hn, h.joined n hn h0⟩

theorem deadlock_of_deadlockGraph? (h : g.deadlockGraph? = some graph) : g.Deadlock graph := by
  unfold deadlockGraph? at h
  dsimp only at h
  split at h
  · simp at h
  · rw [Option.some.injEq] at h
    generalize hinitial : (⟨Graph.initialId, none, g.initial, ∅, [], .initial⟩ : Node sp) = initial
      at h
    generalize hstuck : (⟨1, none, g.domain (g.deadlocking ∩ g.initial),
      g.determinize (g.deadlocking ∩ g.initial), [], .attractorFromCycle⟩ : Node sp) = stuck at h
    have hid : initial.id = Graph.initialId := by rw [← hinitial]
    have hid' : stuck.id = 1 := by rw [← hstuck]
    have hkind : stuck.kind = .attractorFromCycle := by rw [← hstuck]; rfl
    have hwf := Graph.wellFormed_initial hid (by rw [← hinitial]; rfl)
    have hnext : stuck.id = (Graph.empty.addNode initial).nextId := by
      rw [← hstuck, ← hinitial]
      rfl
    have hnodes : ((Graph.empty.addNode initial).addNode stuck).nodes = [initial, stuck] :=
      hwf.nodes_addNode hnext
    have hwf' := hwf.addNode hnext (by rw [hkind]; exact fun h ↦ by cases h)
    have hgraph : graph.nodes = [initial, stuck] := by
      rw [← h, Graph.nodes_addEdge, hnodes]
    have hmem : ∀ n ∈ graph.nodes, n = initial ∨ n = stuck := fun n hn ↦ by
      rw [hgraph] at hn
      simpa using hn
    exact {
      wellFormed := h ▸ hwf'.addEdge ⟨initial, by rw [hnodes]; simp, hid⟩
        ⟨stuck, by rw [hnodes]; simp, hid'⟩
      initial_eq := fun n hn h0 ↦ by
        rcases hmem n hn with rfl | rfl
        · rw [← hinitial]
          exact ⟨rfl, rfl⟩
        · rw [hid'] at h0
          cases h0
      stuck := fun n hn h0 ↦ by
        rcases hmem n hn with rfl | rfl
        · exact absurd hid h0
        · rw [← hstuck]
          exact ⟨rfl, rfl, rfl⟩
      exists_stuck := ⟨stuck, by rw [hgraph]; simp, by rw [hid']; exact Nat.one_ne_zero⟩
      unique := fun n hn m hm hn0 hm0 ↦ by
        rw [(hmem n hn).resolve_left fun h0 ↦ hn0 (h0 ▸ hid),
          (hmem m hm).resolve_left fun h0 ↦ hm0 (h0 ▸ hid)]
      joined := fun n hn h0 ↦ by
        rcases hmem n hn with rfl | rfl
        · exact absurd hid h0
        · rw [← h, Graph.joins_addEdge, hid']
          exact Or.inr ⟨Nat.zero_ne_one, rfl, rfl⟩ }

/-- There is no deadlock graph if no initial state can be left stuck. -/
theorem deadlockGraph?_eq_none_iff_forall :
    g.deadlockGraph? = none ↔ ∀ v, v ∉ g.deadlocking ∩ g.initial := by
  unfold deadlockGraph?
  dsimp only
  rw [ite_eq_left_iff, StateSet.isEmpty_iff]
  simp only [reduceCtorEq, imp_false, not_not]
  constructor
  · exact fun h v hv ↦ h v (mem_domain_of_mem hv)
  · intro h i hi
    obtain ⟨-, v, hv, -⟩ := mem_domain.mp hi
    exact h v hv

/-! ## Outcomes -/

theorem shapeFault?_of_build (h : g.build o = .ok graph) : g.shapeFault? = none := by
  unfold build construct at h
  split at h
  · simp at h
  · assumption

/-- What can be read off a graph that is built. -/
theorem exists_of_any_build {p : Graph sp → Bool} (h : (g.build o).toOption.any p = true) :
    ∃ graph, g.build o = .ok graph ∧ p graph = true := by
  cases hb : g.build o with
  | error e =>
    rw [hb] at h
    cases h
  | ok graph =>
    rw [hb] at h
    exact ⟨graph, rfl, h⟩

/-- A game with the right shape has the graph that finishes its bare graph. -/
theorem build_eq (hs : g.shapeFault? = none) :
    g.build o = (g.bareGraph o).result.map fun graph ↦ (g.finish o graph).1 := by
  unfold build construct
  rw [hs]
  dsimp only
  cases (g.bareGraph o).result with
  | error e => rfl
  | ok graph => rfl

theorem bareGraph_of_deadlock (h : g.deadlockGraph? = some graph) :
    (g.bareGraph o).result = .ok graph := by
  unfold bareGraph
  rw [h]

theorem bareGraph_of_unrealizable (h : g.deadlockGraph? = none) (hr : g.ranking? = none) :
    (g.bareGraph o).result = .error .realizable := by
  unfold bareGraph
  rw [h, hr]

theorem bareGraph_of_ranking {ranking : Ranking sp} (h : g.deadlockGraph? = none)
    (hr : g.ranking? = some ranking) :
    (g.bareGraph o).result = match g.decompose o ranking with
      | .error h => .error (.violation h.cause)
      | .ok d => .ok d.graph := by
  unfold bareGraph
  rw [h, hr]
  dsimp only
  cases g.decompose o ranking with
  | error e => rfl
  | ok d => rfl

/-- A graph before facts are found and chains merged: that of a deadlock or of a decomposition. -/
def Bare (g : Game sp) (o : Options) (bare : Graph sp) : Prop :=
  g.Deadlock bare ∨ ∃ ranking d, g.ranking? = some ranking ∧ g.decompose o ranking = .ok d ∧
    bare = d.graph

theorem Bare.wellFormed {bare : Graph sp} (h : g.Bare o bare) (hs : g.Shaped) (ho : g.OfStates) :
    bare.WellFormed := by
  rcases h with hdead | ⟨ranking, d, hr, hd, rfl⟩
  · exact hdead.wellFormed
  · exact (Decomposition.finished_of_decompose hs ho hr hd).wellFormed

theorem Bare.current {bare : Graph sp} (h : g.Bare o bare) (hs : g.Shaped) (ho : g.OfStates)
    {n : Node sp} (hn : n ∈ bare.nodes) : n.states.Current := by
  rcases h with hdead | ⟨ranking, d, hr, hd, rfl⟩
  · by_cases h0 : n.id = Graph.initialId
    · rw [(hdead.initial_eq n hn h0).1]
      exact ho.initial.current
    · rw [(hdead.stuck n hn h0).1]
      exact current_domain _
  · exact (Decomposition.finished_of_decompose hs ho hr hd).current hs ho hn

/-- What a graph finishes. -/
theorem exists_result_of_build (h : g.build o = .ok graph) :
    ∃ bare, (g.bareGraph o).result = .ok bare ∧ graph = (g.finish o bare).1 := by
  rw [build_eq (shapeFault?_of_build h)] at h
  cases hbare : (g.bareGraph o).result with
  | error e =>
    rw [hbare] at h
    cases h
  | ok bare =>
    rw [hbare] at h
    exact ⟨bare, rfl, (Except.ok.inj h).symm⟩

/-- A bare graph is that of the deadlock, or else of the decomposition of the ranks. -/
theorem cases_of_bareGraph {bare : Graph sp} (h : (g.bareGraph o).result = .ok bare) :
    g.deadlockGraph? = some bare ∨ ∃ ranking d, g.ranking? = some ranking ∧
      g.decompose o ranking = .ok d ∧ bare = d.graph := by
  cases hdead : g.deadlockGraph? with
  | some graph =>
    rw [bareGraph_of_deadlock hdead] at h
    exact Or.inl (congrArg some (Except.ok.inj h))
  | none =>
    cases hr : g.ranking? with
    | none =>
      rw [bareGraph_of_unrealizable hdead hr] at h
      cases h
    | some ranking =>
      rw [bareGraph_of_ranking hdead hr] at h
      cases hdec : g.decompose o ranking with
      | error e =>
        rw [hdec] at h
        cases h
      | ok d =>
        rw [hdec] at h
        exact Or.inr ⟨ranking, d, rfl, hdec, (Except.ok.inj h).symm⟩

/-- **What a graph finishes** is a bare graph. -/
theorem exists_bareGraph_of_build (h : g.build o = .ok graph) :
    ∃ bare, graph = (g.finish o bare).1 ∧ g.Bare o bare := by
  obtain ⟨bare, hbare, hfinish⟩ := exists_result_of_build h
  exact ⟨bare, hfinish, (cases_of_bareGraph hbare).imp_left deadlock_of_deadlockGraph?⟩

theorem exists_finish_of_build (ho : g.OfStates) (h : g.build o = .ok graph) :
    ∃ bare, graph = (g.finish o bare).1 ∧
      (g.Deadlock bare ∨ ∃ ranking, g.ranking? = some ranking ∧
        Decomposition.Finished g ranking bare) := by
  have hs := shaped_of_shapeFault?_eq_none (shapeFault?_of_build h)
  obtain ⟨bare, hfinish, hbare⟩ := exists_bareGraph_of_build h
  refine ⟨bare, hfinish, hbare.imp_right ?_⟩
  rintro ⟨ranking, d, hr, hdec, rfl⟩
  exact ⟨ranking, hr, Decomposition.finished_of_decompose hs ho hr hdec⟩

/-- **What a graph folds.** -/
theorem exists_folds_of_build (ho : g.OfStates) (h : g.build o = .ok graph) :
    ∃ bare f, Graph.Folds f bare graph ∧
      (g.Deadlock bare ∨ ∃ ranking, g.ranking? = some ranking ∧
        Decomposition.Finished g ranking bare) := by
  obtain ⟨bare, rfl, hbare⟩ := exists_finish_of_build ho h
  have hwf : bare.WellFormed := hbare.elim (·.wellFormed) fun ⟨_, _, hf⟩ ↦ hf.wellFormed
  obtain ⟨f, hf⟩ := Graph.folds_finish (g := g) hwf o
  exact ⟨bare, f, hf, hbare⟩

/-- Where no chains are merged, a node gets facts and stays as it is otherwise. -/
theorem exists_node_of_mem_finish (hm : o.mergeAttractors = false) {bare : Graph sp} {n : Node sp}
    (hn : n ∈ (g.finish o bare).1.nodes) : ∃ m ∈ bare.nodes, n = { m with facts := n.facts } := by
  unfold finish at hn
  dsimp only at hn
  rw [hm, if_neg Bool.false_ne_true] at hn
  split at hn
  · obtain ⟨m, hm, rfl⟩ := List.mem_map.mp hn
    exact ⟨m, hm, rfl⟩
  · exact ⟨n, hn, rfl⟩

/-- Where no chains are merged, the edges stay as they are, facts aside. -/
theorem joins_finish (hm : o.mergeAttractors = false) {bare : Graph sp} {a b : Nat} :
    (g.finish o bare).1.Joins a b ↔ bare.Joins a b := by
  unfold finish
  dsimp only
  rw [hm, if_neg Bool.false_ne_true]
  split
  · exact Graph.joins_annotate
  · rfl

end JusticeViolation.Game

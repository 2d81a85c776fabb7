import JusticeViolation.Proofs.Decomposition.Run

/-!
# Edges from the initial node

Not all initial states become start points: in each cell they are fixed to one move of the
environment. But a rank with an initial state gets some start point from the initial node, and has
it until it is taken up, since no rank is taken up twice. Then an edge from the initial node to
every new node of the rank is looked for, and it is looked for among all initial states. So the
initial node has an edge to every node that holds an initial state.
-/

namespace JusticeViolation.Decomposition

variable {sp : Space} {g : Game sp} {ranking : Ranking sp} {d d' : Decomposition sp}

/-- Ranks with initial states are served from the initial node, and nodes with initial states are
its children. -/
structure Opened (g : Game sp) (d : Decomposition sp) : Prop where
  served : ∀ r, ∀ i ∈ g.initial, i ∈ g.level r →
    ∃ j ∈ g.initial, j ∈ g.level r ∧ d.Served g Graph.initialId j
  joined : ∀ m ∈ d.graph.nodes, m.id ≠ Graph.initialId →
    ∀ i ∈ g.initial, i ∈ g.strip m.states → d.graph.Joins Graph.initialId m.id

section Step

variable {o : Options} {bound : Nat} {item : Item sp} {rest : List (Item sp)} (h : g.Shaped)
  (ho : g.OfStates) (hd : d.Sound g ranking bound) (hqueue : d.queue = item :: rest)

include h ho hd hqueue

/-- An initial state that is served in the first rank of the queue awaits it: the nodes that are
there already are of higher ranks, and the rest of the queue of lower ones. -/
theorem Sound.awaits_of_served {i : Nat} (hi : i ∈ g.level item.node.rank)
    (hserved : d.Served g Graph.initialId i) : item.Awaits Graph.initialId i := by
  rcases hserved with ⟨m, hm, hjoins, him⟩ | ⟨item', hitem', hawaits⟩
  · obtain ⟨items, horigin⟩ := hd.origin
    obtain ⟨r, hbound, hrank, hfrom⟩ := horigin m hm (hd.wellFormed.ends _ _ hjoins).2.2.symm
    have heq := h.level_disjoint hi (hfrom.level_of_mem_strip h ho him)
    have hlt := hd.below item (hqueue ▸ List.mem_cons_self)
    omega
  · have heq := h.level_disjoint hi ((hd.fits item' hitem').level_of_awaits hawaits)
    rw [hqueue] at hitem'
    rcases List.mem_cons.mp hitem' with rfl | hrest
    · exact hawaits
    · have hsorted := hd.sorted
      rw [hqueue, List.pairwise_cons] at hsorted
      have hlt := hsorted.1 item' hrest
      omega

/-- **Taking up a rank** joins the initial node to all new nodes that hold an initial state. -/
theorem Opened.process (hopened : d.Opened g) (hr : g.ranking? = some ranking)
    (hok : ({ d with queue := rest } : Decomposition sp).process g o ranking item = .ok d')
    (ha : Advances g ranking item d d') : d'.Opened g := by
  refine ⟨fun r i hi hl ↦ ?_, fun m hm h0 i hi him ↦ ?_⟩
  · obtain ⟨j, hj, hjl, hserved⟩ := hopened.served r i hi hl
    exact ⟨j, hj, hjl, ha.served_initial hj hserved⟩
  obtain ⟨d₁, emitted, na, nc, nd, he, d₂, paths, nodes, hsuccessors, rfl⟩ :=
    exists_extends_of_process h ho hr hd hqueue hok
  change m ∈ d₂.graph.nodes at hm
  change d₂.graph.Joins _ _
  rw [graph_queueSuccessors hsuccessors] at hm ⊢
  have hm' := hm
  rw [he.nodes_eq] at hm'
  rcases List.mem_append.mp hm' with hold | hnew
  · exact (he.joins _ _).mpr (Or.inl (hopened.joined m hold h0 i hi him))
  · -- the rank of the new node holds an initial state, so the initial node is one of its sources
    have hl := (he.from_item hnew).level_of_mem_strip h ho him
    obtain ⟨j, -, hjl, hserved⟩ := hopened.served _ i hi hl
    obtain ⟨p, hp, hsource, -⟩ := hd.awaits_of_served h ho hqueue hjl hserved
    have hcandidate : (Graph.initialId, m.id) ∈ edgeCandidates item.sources emitted :=
      mem_edgeCandidates.mpr (Or.inl ⟨Item.mem_sources.mpr ⟨p, hp, hsource⟩,
        he.emitted_eq ▸ List.mem_map_of_mem hnew⟩)
    exact he.joins_of_mem hm rfl hcandidate (Ne.symm h0) hi him

end Step

/-- **Where the initial node leads.** A finished decomposition has an edge from the initial node to
every node that holds an initial state. -/
theorem opened_of_decompose {o : Options} (h : g.Shaped) (ho : g.OfStates) (hcover : g.RowsCover)
    (hr : g.ranking? = some ranking) (hd : g.decompose o ranking = .ok d) : d.Opened g := by
  obtain ⟨hstart, hroot, hawaits⟩ := sound_start h ho hr
  have hopened : (start g ranking).Opened g := by
    refine ⟨fun r i hi hl ↦ ?_, fun m hm h0 ↦ absurd (hroot m hm) h0⟩
    obtain ⟨j, hj, hjl, hja⟩ := hawaits hcover r i hi hl
    exact ⟨j, hj, hjl, Or.inr hja⟩
  exact (run_induction h ho hr (P := Opened g)
    (fun hd hqueue hok ha hopened ↦ hopened.process h ho hd hqueue hr hok ha) hstart hopened
    (remaining_le ranking g.numRanks) hd).2.2

end JusticeViolation.Decomposition

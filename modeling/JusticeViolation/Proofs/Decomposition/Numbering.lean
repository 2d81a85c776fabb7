import JusticeViolation.Proofs.Decomposition.Order
import JusticeViolation.Proofs.Graph.Merging

/-!
# Numbers of nodes

Nodes get the numbers from 0 on, in the order in which they are added. An edge is looked for when
its target is new, from a source of the rank, which was there before, or from an earlier new node.
So edges lead from lower numbers to higher ones. An edge is added only where a step is found along
it, and the step is still found when there are more nodes.

None of this takes anything of the game: it holds of every decomposition that comes to its end.
-/

namespace JusticeViolation

variable {sp : Space} {g : Game sp}

/-! ## Graphs that are numbered from 0 on -/

namespace Graph

variable {graph : Graph sp}

/-- The nodes have the numbers from 0 on, and edges lead to higher ones. -/
structure Numbered (graph : Graph sp) : Prop extends WellFormed graph where
  ids : graph.nodes.map (·.id) = List.range graph.nodes.length
  sorted : graph.Sorted
  ascends : ∀ a b, graph.Joins a b → a < b

/-- The graph of the initial node alone. -/
theorem numbered_initial {n : Node sp} (hid : n.id = initialId) (hkind : n.kind = .initial) :
    (empty.addNode n).Numbered where
  toWellFormed := wellFormed_initial hid hkind
  ids := congrArg (fun id ↦ [id]) hid
  sorted := .nil
  ascends := fun _ _ ⟨_, he, _⟩ ↦ absurd he List.not_mem_nil

namespace Numbered

variable (h : graph.Numbered)

include h

/-- The number of a node is below the number of nodes, and each below is that of a node. -/
theorem exists_node_iff {id : Nat} : (∃ n ∈ graph.nodes, n.id = id) ↔ id < graph.nodes.length := by
  rw [← List.mem_range, ← h.ids, List.mem_map]

theorem nextId_eq : graph.nextId = graph.nodes.length := by
  obtain ⟨n, hn, -⟩ := h.root
  obtain ⟨front, last, hlast⟩ : ∃ front last, graph.nodes = front ++ [last] :=
    ⟨_, _, (List.dropLast_append_getLast (List.ne_nil_of_mem hn)).symm⟩
  have hids := h.ids
  rw [hlast, List.map_append, List.length_append, List.length_singleton, List.range_succ] at hids
  have hid : last.id = front.length :=
    List.singleton_inj.mp (List.append_inj_right hids (by rw [List.length_map, List.length_range]))
  rw [nextId, hlast, List.getLast?_append, List.getLast?_singleton, Option.some_or,
    List.length_append, List.length_singleton, ← hid]

theorem addNode {n : Node sp} (hid : n.id = graph.nextId) (hkind : n.kind ≠ .initial) :
    (graph.addNode n).Numbered where
  toWellFormed := h.toWellFormed.addNode hid hkind
  ids := by
    rw [h.nodes_addNode hid, List.map_append, h.ids, List.length_append, List.length_singleton,
      List.range_succ, List.map_singleton, hid, h.nextId_eq]
  sorted := h.sorted
  ascends := h.ascends

theorem addEdge {a b : Nat} (hlt : a < b) (hb : b < graph.nodes.length) :
    (graph.addEdge a b).Numbered where
  toWellFormed := h.toWellFormed.addEdge (h.exists_node_iff.mpr (hlt.trans hb))
    (h.exists_node_iff.mpr hb)
  ids := by
    rw [nodes_addEdge]
    exact h.ids
  sorted := h.sorted.addEdge a b
  ascends := fun s t hst ↦ by
    rcases joins_addEdge.mp hst with hold | ⟨-, rfl, rfl⟩
    · exact h.ascends s t hold
    · exact hlt

end Numbered

end Graph

namespace Decomposition

variable {ranking : Ranking sp} {d d' : Decomposition sp}

/-! ## The invariant -/

/-- **A decomposition whose edges are found from below**: the nodes have the numbers from 0 on,
every edge leads to a higher one, a step is found along it, and ranks are waiting for nodes only. -/
structure Linked (g : Game sp) (d : Decomposition sp) : Prop where
  numbered : d.graph.Numbered
  witnessed : ∀ a b, d.graph.Joins a b → ∃ s, d.graph.edgeStates? g a b = some s ∧ ∃ i, i ∈ s
  sources : ∀ item ∈ d.queue, ∀ id ∈ item.sources, id < d.graph.nodes.length

/-- Reports, and ranks that are taken from the queue, do not matter. -/
theorem Linked.of_graph_eq (h : d.Linked g) (hgraph : d'.graph = d.graph)
    (hqueue : ∀ item ∈ d'.queue, item ∈ d.queue) : d'.Linked g where
  numbered := hgraph ▸ h.numbered
  witnessed := hgraph ▸ h.witnessed
  sources := fun item hitem ↦ hgraph ▸ h.sources item (hqueue item hitem)

/-- Making a node a source of one more rank. -/
theorem Linked.enqueue (h : d.Linked g) (node : RankNode sp) {source : Nat}
    (starts : Item sp → List (Nat × Nat × StateSet sp)) (hsource : source < d.graph.nodes.length) :
    (d.enqueue g node fun item ↦ item.addStarts (starts item) source).Linked g where
  numbered := h.numbered
  witnessed := h.witnessed
  sources := by
    refine forall_changeItem (fun id hid ↦ ?_) (fun item hitem _ id hid ↦ ?_) h.sources
    · rcases mem_sources_addStarts hid with rfl | hid
      · exact hsource
      · obtain ⟨p, hp, -⟩ := Item.mem_sources.mp hid
        exact absurd hp List.not_mem_nil
    · rcases mem_sources_addStarts hid with rfl | hid
      · exact hsource
      · exact h.sources item hitem id hid

theorem linked_start : (start g ranking).Linked g := by
  refine (start_induction (P := fun d ↦ d.Linked g ∧ 0 < d.graph.nodes.length)
    ⟨?_, Nat.one_pos⟩ fun d node _ ⟨h, hpos⟩ ↦
      ⟨h.enqueue node (initialStarts g) hpos, hpos⟩).1
  exact {
    numbered := Graph.numbered_initial rfl rfl
    witnessed := fun _ _ ⟨_, he, _⟩ ↦ absurd he List.not_mem_nil
    sources := fun _ hitem ↦ absurd hitem List.not_mem_nil }

/-! ## One rank -/

/-- Nodes are being added: those with the numbers from `count` on, which are listed. -/
structure Adding (g : Game sp) (count : Nat) (e : Decomposition sp × List Nat) : Prop where
  linked : e.1.Linked g
  length : e.1.graph.nodes.length = count + e.2.length
  emitted : e.2 = List.range' count e.2.length

/-- **Adding the node of one part.** -/
theorem Adding.emit {count : Nat} {e : Decomposition sp × List Nat} (h : Adding g count e)
    (rank : Nat) (inner states : StateSet sp) (body : NodeBody sp) (hbody : body.kind ≠ .initial) :
    Adding g count (emit rank inner states body e) := by
  obtain ⟨d, emitted⟩ := e
  obtain ⟨hlinked, hlength, hemitted⟩ := h
  dsimp only at hlinked hlength hemitted
  unfold Decomposition.emit
  dsimp only
  split
  · exact ⟨hlinked, hlength, hemitted⟩
  · obtain ⟨hnumbered, hwitnessed, hsources⟩ := hlinked
    generalize hn : (⟨d.graph.nextId, some rank, states, inner ∩ states, [], body⟩ : Node sp) = n
    have hid : n.id = d.graph.nextId := by rw [← hn]
    have hnew : (d.graph.addNode n).Numbered :=
      hnumbered.addNode hid (by rw [← hn]; exact hbody)
    have hnodes : (d.graph.addNode n).nodes = d.graph.nodes ++ [n] := hnumbered.nodes_addNode hid
    have hmore : (d.graph.addNode n).nodes.length = d.graph.nodes.length + 1 := by
      rw [hnodes, List.length_append, List.length_singleton]
    refine ⟨⟨hnew, fun a b hab ↦ ?_, fun item hitem id hid ↦ ?_⟩, ?_, ?_⟩
    · obtain ⟨s, hs, hne⟩ := hwitnessed a b hab
      exact ⟨s, Graph.edgeStates?_append hnew.toWellFormed hnodes hs, hne⟩
    · exact (hsources item hitem id hid).trans (hmore ▸ Nat.lt_succ_self _)
    · change (d.graph.addNode n).nodes.length = _
      rw [hmore, hlength, List.length_append, List.length_singleton, Nat.add_assoc]
    · rw [List.length_append, List.length_singleton, List.range'_concat, ← hemitted,
        hnumbered.nextId_eq, hlength, Nat.one_mul]

theorem sorted_connectFold {graph : Graph sp} (h : graph.Sorted) (pairs : List (Nat × Nat)) :
    (pairs.foldl (fun graph (source, target) ↦ connect g graph source target) graph).Sorted := by
  induction pairs generalizing graph with
  | nil => exact h
  | cons p pairs ih =>
    obtain ⟨source, target⟩ := p
    have hconnect : (connect g graph source target).Sorted := by
      unfold connect
      split
      · exact h.addEdge source target
      · exact h
    exact ih hconnect

/-- **The edges around new nodes** come from below. -/
theorem Adding.connectAll {count : Nat} {emitted : List Nat} (h : Adding g count (d, emitted))
    {sources : List Nat} (hsources : ∀ id ∈ sources, id < count) :
    (d.connectAll g sources emitted).Linked g := by
  obtain ⟨⟨hnumbered, hwitnessed, hqueue⟩, hlength, hemitted⟩ := h
  dsimp only at hnumbered hwitnessed hqueue hlength hemitted
  obtain ⟨hwf, hnodes, hjoins⟩ :=
    connectAll_spec (g := g) hnumbered.toWellFormed sources emitted
  have hlt : ∀ a b, (a, b) ∈ edgeCandidates sources emitted → a < b := fun a b hab ↦ by
    rcases mem_edgeCandidates.mp hab with ⟨ha, hb⟩ | hlater
    · rw [hemitted, List.mem_range'_1] at hb
      exact (hsources a ha).trans_le hb.1
    · rw [hemitted] at hlater
      exact rel_of_mem_laterPairs (List.pairwise_lt_range' 1 Nat.one_pos) hlater
  refine ⟨⟨hwf, ?_, sorted_connectFold hnumbered.sorted _, fun a b hab ↦ ?_⟩, fun a b hab ↦ ?_,
    fun item hitem ↦ ?_⟩
  · rw [hnodes]
    exact hnumbered.ids
  · rcases (hjoins a b).mp hab with hold | ⟨hcandidate, -⟩
    · exact hnumbered.ascends a b hold
    · exact hlt a b hcandidate
  · rcases (hjoins a b).mp hab with hold | ⟨-, -, hstep⟩
    · rw [Graph.edgeStates?_congr hnodes]
      exact hwitnessed a b hold
    · exact hstep
  · rw [hnodes]
    exact hqueue item hitem

variable {item : Item sp} {rest : List (Item sp)}

/-- **The nodes and edges of one rank.** -/
theorem Linked.extend (h : d.Linked g) (hqueue : d.queue = item :: rest) {body : NodeBody sp}
    (hbody : body.kind = .cycle) :
    (extend g ranking item body
      (takeUp g ranking item ({ d with queue := rest } : Decomposition sp))).1.Linked g := by
  obtain ⟨hgraph, hrest, -⟩ : _ ∧ (takeUp g ranking item
    ({ d with queue := rest } : Decomposition sp)).queue = _ ∧ _ := takeUp_spec _ _
  have htaken : Adding g d.graph.nodes.length
      (takeUp g ranking item ({ d with queue := rest } : Decomposition sp), []) := by
    refine ⟨h.of_graph_eq hgraph fun i hi ↦ ?_, ?_, rfl⟩
    · rw [hqueue]
      rw [hrest] at hi
      exact List.mem_cons_of_mem _ hi
    · rw [hgraph]
      rfl
  unfold Decomposition.extend
  dsimp only
  have happroach := htaken.emit item.node.rank
    (item.split g (lower ranking item.node)).tracing.inner
    (item.split g (lower ranking item.node)).approach .attractorNotFromCycle
    fun heq ↦ by cases heq
  have hcycle := happroach.emit item.node.rank
    (item.split g (lower ranking item.node)).tracing.inner
    (item.split g (lower ranking item.node)).cycle body
    fun heq ↦ by rw [hbody] at heq; cases heq
  have hdescent := hcycle.emit item.node.rank
    (item.split g (lower ranking item.node)).tracing.inner
    (item.split g (lower ranking item.node)).descent .attractorFromCycle
    fun heq ↦ by cases heq
  exact hdescent.connectAll fun id hid ↦ h.sources item (hqueue ▸ List.mem_cons_self) id hid

/-- **Taking up a rank** finds edges from below. -/
theorem Linked.process {o : Options} (h : d.Linked g) (hqueue : d.queue = item :: rest)
    (hok : ({ d with queue := rest } : Decomposition sp).process g o ranking item = .ok d') :
    d'.Linked g := by
  obtain ⟨body, hbody, d₁, paths, nodes, rfl, hsuccessors⟩ := queueSuccessors_of_process hok
  have hkept : d₁.Linked g :=
    queueSuccessors_induction (P := fun d ↦ d.Linked g) (fun d other _ id _ n cells hn _ _ h ↦ by
      obtain ⟨hmem, rfl⟩ := Graph.mem_of_node?_eq_some hn
      exact (h.enqueue other _ (h.numbered.exists_node_iff.mp ⟨n, hmem, rfl⟩)).of_graph_eq rfl
        fun _ hitem ↦ hitem) (h.extend hqueue (kind_cycleBody hbody)) hsuccessors
  exact hkept.of_graph_eq rfl fun _ hitem ↦ hitem

/-! ## The run -/

/-- **What every rank preserves** that is decomposed, the run preserves. -/
theorem run_preserves {o : Options} {P : Decomposition sp → Prop}
    (hprocess : ∀ {d d' : Decomposition sp} {item : Item sp} {rest : List (Item sp)},
      d.queue = item :: rest →
      ({ d with queue := rest } : Decomposition sp).process g o ranking item = .ok d' →
      P d → P d')
    {fuel : Nat} (h : P d) (hrun : d.run g o ranking fuel = .ok d') : P d' := by
  induction fuel generalizing d with
  | zero => exact Except.ok.inj hrun ▸ h
  | succ fuel ih =>
    rw [run] at hrun
    split at hrun
    · exact Except.ok.inj hrun ▸ h
    · rename_i item rest hqueue
      cases hp : ({ d with queue := rest } : Decomposition sp).process g o ranking item with
      | error e =>
        rw [hp] at hrun
        cases hrun
      | ok d₁ =>
        rw [hp] at hrun
        exact ih (hprocess hqueue hp h) hrun

/-- **A decomposition that ends** has found its edges from below. -/
theorem linked_of_decompose {o : Options} (h : g.decompose o ranking = .ok d) : d.Linked g :=
  run_preserves (fun hqueue hok h ↦ h.process hqueue hok) linked_start h

end Decomposition

end JusticeViolation

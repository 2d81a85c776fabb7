import JusticeViolation.Proofs.Fact
import JusticeViolation.Proofs.Game.Moves
import JusticeViolation.Proofs.Graph.Contraction

/-!
# Graphs with all their facts

A graph is *annotated* if each node and each edge has the facts of its states, so that finding facts
again changes nothing.

A merged node has the facts that the merged ones share, and these are the facts of the union of
their states, since no attractor is empty. The facts of an edge depend on its two ends. Until the
search is over, an edge between nodes that have not taken in others is an edge from the beginning,
and so are its ends; the facts of all other edges are found anew. That is why it is enough to look
at the edges of nodes that have grown, however often they were grown or taken in themselves.
-/

namespace JusticeViolation.Graph

variable {sp : Space} {g : Game sp} {graph graph' current : Graph sp} {folded : List (Nat × Nat)}

/-! ## Annotated graphs -/

/-- The nodes have the facts of their states. -/
def NodesAnnotated (g : Game sp) (graph : Graph sp) : Prop :=
  ∀ n ∈ graph.nodes, n.facts = (g.strip n.states).facts [g.marker]

/-- The nodes and the edges have the facts of their states. -/
structure Annotated (g : Game sp) (graph : Graph sp) : Prop where
  nodes : graph.NodesAnnotated g
  edges : ∀ e ∈ graph.edges, e.facts = graph.edgeFacts g e.source e.target

theorem edgeFacts_congr (h : graph'.nodes = graph.nodes) (a b : Nat) :
    graph'.edgeFacts g a b = graph.edgeFacts g a b := by
  rw [edgeFacts, edgeFacts, edgeStates?_congr h]

theorem Simple.edgeFacts_eq (h : graph.Simple) {n m : Node sp} (hn : n ∈ graph.nodes)
    (hm : m ∈ graph.nodes) :
    graph.edgeFacts g n.id m.id = (n.arrivals g ∩ g.strip m.states).facts [g.marker] := by
  rw [edgeFacts, h.edgeStates?_eq hn hm]

/-- **Finding the facts of some edges** is enough if the others have theirs. -/
theorem annotated_annotateEdges {touched : Nat → Nat → Bool} (hnodes : graph.NodesAnnotated g)
    (hedges : ∀ e ∈ graph.edges, touched e.source e.target = false →
      e.facts = graph.edgeFacts g e.source e.target) :
    (graph.annotateEdges g touched).Annotated g where
  nodes := hnodes
  edges := fun e' he' ↦ by
    obtain ⟨e, he, rfl⟩ := List.mem_map.mp he'
    have hsame : ∀ a b, (graph.annotateEdges g touched).edgeFacts g a b = graph.edgeFacts g a b :=
      edgeFacts_congr rfl
    rw [hsame]
    split
    · rfl
    · rename_i htouched
      exact hedges e he (Bool.not_eq_true _ ▸ htouched)

theorem annotated_annotate (graph : Graph sp) : (graph.annotate g).Annotated g := by
  refine annotated_annotateEdges (fun n' hn' ↦ ?_) fun _ _ htouched ↦ by cases htouched
  obtain ⟨n, -, rfl⟩ := List.mem_map.mp hn'
  rfl

/-- Finding the facts of an annotated graph changes nothing. -/
theorem Annotated.annotate_eq (h : graph.Annotated g) : graph.annotate g = graph := by
  have hnodes : (graph.mapNodes fun n ↦ { n with facts := (g.strip n.states).facts [g.marker] })
      = graph := by
    have hmap : graph.nodes.map (fun n ↦ { n with facts := (g.strip n.states).facts [g.marker] })
        = graph.nodes.map id := List.map_congr_left fun n hn ↦ by rw [← h.nodes n hn]; rfl
    rw [mapNodes, hmap, List.map_id]
  have hedges : graph.edges.map (fun e ↦
      { e with facts := graph.edgeFacts g e.source e.target }) = graph.edges.map id :=
    List.map_congr_left fun e he ↦ by rw [← h.edges e he]; rfl
  rw [annotate, hnodes]
  unfold annotateEdges
  simp only [if_true]
  rw [hedges, List.map_id]

/-! ## Nodes -/

/-- **The nodes of a quotient** have the facts of their states if those of the graph have, and no
attractor is empty. -/
theorem Quotient.nodesAnnotated {f : Nat → Nat} (h : Quotient f graph graph') (hs : graph.Simple)
    (hg : g.Shaped) (hne : ∀ n ∈ graph.nodes, n.kind.isAttractor = true → ∃ i, i ∈ n.states)
    (hnodes : graph.NodesAnnotated g) : graph'.NodesAnnotated g := by
  intro n' hn'
  obtain ⟨n, hn, hid, -, -, hfacts⟩ := h.exists_member n' hn'
  cases hkind : n.kind.isAttractor with
  | false =>
    -- `n` is alone in its class
    have halone : ∀ m ∈ graph.nodes, f m.id = n'.id → m = n := fun m hm hmn ↦
      (hs.eq_of_id_eq hn hm (h.id_eq_of_not_isAttractor hn hm hkind (hid.trans hmn.symm))).symm
    have hstates : n'.states = n.states := StateSet.ext_mem fun i ↦ by
      rw [h.mem_states n' hn']
      refine ⟨fun ⟨m, hm, hmn, hi⟩ ↦ halone m hm hmn ▸ hi, fun hi ↦ ⟨n, hn, hid, hi⟩⟩
    rw [hfacts, hstates, ← hnodes n hn, List.filter_eq_self]
    exact fun fact hfact ↦ decide_eq_true fun m hm hmn ↦ halone m hm hmn ▸ hfact
  | true =>
    have hmembers : ∀ m ∈ graph.nodes, f m.id = n'.id → ∃ i, i ∈ m.states := fun m hm hmn ↦ by
      refine hne m hm ?_
      by_cases heq : m.id = n.id
      · rwa [hs.eq_of_id_eq hm hn heq]
      · exact h.isAttractor m hm n hn (hmn.trans hid.symm) heq
    -- the parts of the union are the stripped states of the members
    rw [hfacts, hnodes n hn]
    refine (StateSet.facts_eq_filter
      (fun u ↦ ∃ m ∈ graph.nodes, f m.id = n'.id ∧ u = g.strip m.states) ⟨n, hn, hid, rfl⟩
      (fun i ↦ ?_) ?_ fun fact ↦ ?_).symm
    · rw [hg.mem_strip_iff]
      constructor
      · rintro ⟨hi, j, hj, hij⟩
        obtain ⟨m, hm, hmn, hjm⟩ := (h.mem_states n' hn' j).mp hj
        exact ⟨_, ⟨m, hm, hmn, rfl⟩, hg.mem_strip_iff.mpr ⟨hi, j, hjm, hij⟩⟩
      · rintro ⟨_, ⟨m, hm, hmn, rfl⟩, hi⟩
        obtain ⟨hlt, j, hj, hij⟩ := hg.mem_strip_iff.mp hi
        exact ⟨hlt, j, (h.mem_states n' hn' j).mpr ⟨m, hm, hmn, hj⟩, hij⟩
    · rintro _ ⟨m, hm, hmn, rfl⟩
      obtain ⟨i, hi⟩ := hmembers m hm hmn
      exact ⟨i, hg.mem_strip_iff.mpr ⟨StateSet.lt_size hi, i, hi, Space.AgreeOff.refl _ i⟩⟩
    · rw [decide_eq_true_iff]
      constructor
      · rintro hall _ ⟨m, hm, hmn, rfl⟩
        exact hnodes m hm ▸ hall m hm hmn
      · exact fun hall m hm hmn ↦ hnodes m hm ▸ hall _ ⟨m, hm, hmn, rfl⟩

/-! ## Edges between nodes that have not grown -/

/-- The node of a number has taken in another. -/
def Grown (folded : List (Nat × Nat)) (id : Nat) : Prop := ∃ child, (id, child) ∈ folded

theorem grown_append_singleton {parent child id : Nat} :
    Grown (folded ++ [(parent, child)]) id ↔ Grown folded id ∨ id = parent := by
  simp only [Grown, List.mem_append, List.mem_singleton, exists_or, Prod.mk.injEq, exists_and_left,
    exists_eq, and_true]

/-- An edge that is added touches where it was added, and the others stay. -/
theorem mem_edges_mergeEdge {d e : Edge} (he : e ∈ (graph.mergeEdge d).edges) :
    e ∈ graph.edges ∨ (e.source = d.source ∧ e.target = d.target) := by
  have hstay : ∀ f ∈ graph.edges, f ∈ graph.edges ∨ (f.source = d.source ∧ f.target = d.target) :=
    fun _ hf ↦ Or.inl hf
  unfold mergeEdge at he
  split at he
  · exact Or.inl he
  · split at he
    · exact forall_insertEdge (Or.inr ⟨rfl, rfl⟩) hstay e he
    · rename_i f hf
      have hends := List.find?_some hf
      rw [Bool.and_eq_true, beq_iff_eq, beq_iff_eq] at hends
      exact forall_insertEdge (Or.inr hends) hstay e he

/-- Folding changes no edges but those of the parent. -/
theorem mem_edges_absorb {parent child : Nat} {e : Edge}
    (he : e ∈ (graph.absorb parent child).edges) :
    e ∈ graph.edges ∨ e.source = parent ∨ e.target = parent := by
  have hreroute : ∀ d : Edge,
      (reroute parent child d).source = parent ∨ (reroute parent child d).target = parent := by
    intro d
    unfold reroute
    split
    · exact Or.inl rfl
    · exact Or.inr rfl
  have hfold : ∀ (ds : List Edge) (rest : Graph sp),
      e ∈ (ds.foldl (fun rest d ↦ rest.mergeEdge (reroute parent child d)) rest).edges →
      e ∈ rest.edges ∨ e.source = parent ∨ e.target = parent := by
    intro ds
    induction ds with
    | nil => exact fun _ he ↦ Or.inl he
    | cons d ds ih =>
      intro rest he
      rcases ih _ he with he | htouch
      · refine (mem_edges_mergeEdge he).imp_right fun ⟨hsource, htarget⟩ ↦ ?_
        rw [hsource, htarget]
        exact hreroute d
      · exact Or.inr htouch
  unfold absorb at he
  split at he
  · exact Or.inl he
  · exact (hfold _ _ he).imp_left fun he ↦ (List.mem_filter.mp he).1

namespace Contracts

variable (h : Contracts graph folded current) (hr : graph.Rooted)

include h hr

/-- A node that has not grown is one from the beginning. -/
theorem mem_nodes {k : Node sp} (hk : k ∈ current.nodes) (hgrown : ¬Grown folded k.id) :
    k ∈ graph.nodes := by
  induction h generalizing k with
  | start => exact hk
  | fold h hn hm _ _ hjoins _ ih =>
    rw [grown_append_singleton, not_or] at hgrown
    have hr' := h.rooted hr
    rcases (mem_nodes_absorb hr'.toSimple hn hm (hr'.ends _ _ hjoins).2.2).mp hk with rfl | ⟨hk, -⟩
    · exact absurd rfl hgrown.2
    · exact ih hk hgrown.1

omit hr in
/-- An edge between nodes that have not grown is one from the beginning. -/
theorem mem_edges {e : Edge} (he : e ∈ current.edges) (hsource : ¬Grown folded e.source)
    (htarget : ¬Grown folded e.target) : e ∈ graph.edges := by
  induction h with
  | start => exact he
  | fold h _ _ _ _ _ _ ih =>
    rw [grown_append_singleton, not_or] at hsource htarget
    rcases mem_edges_absorb he with he | hparent | hparent
    · exact ih he hsource.1 htarget.1
    · exact absurd hparent hsource.2
    · exact absurd hparent htarget.2

/-- **An edge between nodes that have not grown** keeps its facts, and they are those of its
states. -/
theorem facts_eq (hgraph : graph.Annotated g) {e : Edge} (he : e ∈ current.edges)
    (hsource : ¬Grown folded e.source) (htarget : ¬Grown folded e.target) :
    e.facts = current.edgeFacts g e.source e.target := by
  have hr' := h.rooted hr
  obtain ⟨⟨n, hn, hnid⟩, ⟨m, hm, hmid⟩, -⟩ := hr'.ends e.source e.target ⟨e, he, rfl, rfl⟩
  rw [hgraph.edges e (h.mem_edges he hsource htarget)]
  rw [← hnid] at hsource
  rw [← hmid] at htarget
  rw [← hnid, ← hmid, hr'.edgeFacts_eq hn hm,
    hr.edgeFacts_eq (h.mem_nodes hr hn hsource) (h.mem_nodes hr hm htarget)]

end Contracts

/-! ## The search -/

namespace Merging

variable {s : Merging sp} {id child : Nat}

/-- The search keeps the numbers of the nodes that have grown. -/
def ListsGrown (s : Merging sp) : Prop := ∀ id, id ∈ s.grown ↔ Grown s.folded id

theorem ListsGrown.visitChild (h : s.ListsGrown) (id child : Nat) :
    (s.visitChild id child).ListsGrown := by
  unfold Merging.visitChild
  split
  · intro k
    rw [mem_insertAscending, grown_append_singleton, h k, or_comm]
  · exact h

theorem ListsGrown.visit (h : s.ListsGrown) (id : Nat) : (s.visit id).ListsGrown := by
  have hchildren : ∀ (children : List Nat) (s : Merging sp), s.ListsGrown →
      (children.foldl (fun s child ↦ s.visitChild id child) s).ListsGrown := by
    intro children
    induction children with
    | nil => exact fun _ h ↦ h
    | cons child children ih => exact fun s h ↦ ih _ (h.visitChild id child)
  unfold Merging.visit
  split
  · exact h
  · dsimp only
    split
    · exact hchildren _ _ h
    · exact h

theorem ListsGrown.run (fuel : Nat) (seen : List Nat) (h : s.ListsGrown) :
    (run fuel seen s).ListsGrown := by
  induction fuel generalizing seen s with
  | zero => exact h
  | succ fuel ih =>
    rw [Merging.run]
    split
    · exact h
    · rename_i id queue _
      exact ih (id :: seen) (ListsGrown.visit (s := { s with queue }) h id)

end Merging

theorem mem_grown_merging {id : Nat} : id ∈ graph.merging.grown ↔ Grown graph.foldings id :=
  Merging.ListsGrown.run _ _ (fun _ ↦ iff_of_false List.not_mem_nil fun ⟨_, h⟩ ↦
    List.not_mem_nil h) id

/-! ## The merged graph -/

/-- New numbers do not change what there is to be found. -/
theorem Annotated.renumber (h : graph.Annotated g) (hr : graph.Rooted) :
    graph.renumber.Annotated g where
  nodes := fun n' hn' ↦ by
    obtain ⟨n, hn, rfl⟩ := List.mem_map.mp hn'
    exact h.nodes n hn
  edges := fun e' he' ↦ by
    obtain ⟨e, he, rfl⟩ := List.mem_map.mp he'
    obtain ⟨⟨n, hn, hnid⟩, ⟨m, hm, hmid⟩, -⟩ := hr.ends e.source e.target ⟨e, he, rfl, rfl⟩
    have hquotient := quotient_renumber hr
    have hids := ids_renumber hr.toSimple
    have hlength : graph.renumber.nodes.length = graph.nodes.length := List.length_map _
    have hr' := hquotient.rooted hr (ascending_of_ids (hlength ▸ hids))
    have hmem : ∀ k ∈ graph.nodes, { k with id := graph.position k.id } ∈ graph.renumber.nodes :=
      fun k hk ↦ List.mem_map.mpr ⟨k, hk, rfl⟩
    have harrivals : Node.arrivals g { n with id := graph.position n.id } = n.arrivals g :=
      if_congr (hquotient.eq_initialId_iff hr hn) rfl rfl
    have hfacts := hr'.edgeFacts_eq (g := g) (hmem n hn) (hmem m hm)
    rw [harrivals, ← hr.edgeFacts_eq hn hm, hnid, hmid, ← h.edges e he] at hfacts
    exact hfacts.symm

theorem Rooted.annotateEdges (hr : graph.Rooted) (touched : Nat → Nat → Bool) :
    (graph.annotateEdges g touched).Rooted := by
  have hquotient : Quotient id graph (graph.annotateEdges g touched) :=
    quotient_of_nodes_eq hr.toSimple rfl fun _ _ ↦ joins_annotateEdges
  exact hquotient.rooted hr hr.ascending

/-- **Merging keeps a graph annotated** if it finds anew the facts of the edges of grown nodes, and
no attractor is empty. -/
theorem Annotated.mergeAttractors (h : graph.Annotated g) (hr : graph.Rooted) (hs : graph.Sorted)
    (hg : g.Shaped) (hne : ∀ n ∈ graph.nodes, n.kind.isAttractor = true → ∃ i, i ∈ n.states) :
    (graph.mergeAttractors g true).Annotated g := by
  have hcontracts := contracts_merging hr hs
  have hr' := hcontracts.rooted hr
  have hnodes : graph.merging.graph.NodesAnnotated g :=
    (hcontracts.quotient hr).nodesAnnotated hr.toSimple hg hne h.nodes
  have hedges : ∀ e ∈ graph.merging.graph.edges, e.source ∉ graph.merging.grown →
      e.target ∉ graph.merging.grown →
      e.facts = graph.merging.graph.edgeFacts g e.source e.target := fun e he hsource htarget ↦
    hcontracts.facts_eq hr h he (mt mem_grown_merging.mpr hsource)
      (mt mem_grown_merging.mpr htarget)
  unfold Graph.mergeAttractors
  dsimp only
  rw [Bool.true_and]
  split
  · refine Annotated.renumber (annotated_annotateEdges hnodes fun e he htouched ↦ ?_)
      (hr'.annotateEdges _)
    rw [Bool.or_eq_false_iff, List.contains_eq_mem, List.contains_eq_mem, decide_eq_false_iff_not,
      decide_eq_false_iff_not] at htouched
    exact hedges e he htouched.1 htouched.2
  · rename_i hnone
    rw [Bool.not_eq_true', Bool.not_eq_false, List.isEmpty_iff] at hnone
    refine Annotated.renumber ⟨hnodes, fun e he ↦ hedges e he ?_ ?_⟩ hr'
    · rw [hnone]
      exact List.not_mem_nil
    · rw [hnone]
      exact List.not_mem_nil

end JusticeViolation.Graph

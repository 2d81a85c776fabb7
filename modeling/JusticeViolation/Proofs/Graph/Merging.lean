import JusticeViolation.Proofs.Graph.Quotient

/-!
# The search for chains

The search changes its graph in one way only: an attractor that it looks at takes in a child that is
an attractor too. So whatever has been searched, the graph is a quotient of the one that the search
began with, a node has disappeared for every folding, and no number has been met that was not the
number of a node from the beginning. Numbering through at the end leaves the numbers from 0 on.
-/

namespace JusticeViolation.Graph

variable {sp : Space} {g : Game sp} {graph : Graph sp}

/-! ## Edges in order -/

/-- The edges are listed in lexicographic order, each once. -/
def Sorted (graph : Graph sp) : Prop :=
  graph.edges.Pairwise fun e f ↦ pairLt (e.source, e.target) (f.source, f.target) = true

theorem forall_insertEdge {P : Edge → Prop} {e : Edge} {fs : List Edge} (he : P e)
    (hfs : ∀ f ∈ fs, P f) : ∀ f ∈ insertEdge e fs, P f := by
  induction fs with
  | nil =>
    intro f hf
    rw [insertEdge, List.mem_singleton] at hf
    exact hf ▸ he
  | cons d fs ih =>
    obtain ⟨hd, hfs⟩ := List.forall_mem_cons.mp hfs
    rw [insertEdge]
    split
    · exact List.forall_mem_cons.mpr ⟨he, List.forall_mem_cons.mpr ⟨hd, hfs⟩⟩
    · split
      · exact List.forall_mem_cons.mpr ⟨he, hfs⟩
      · exact List.forall_mem_cons.mpr ⟨hd, ih hfs⟩

private theorem pairwise_insertEdge {e : Edge} {fs : List Edge}
    (h : fs.Pairwise fun e f ↦ pairLt (e.source, e.target) (f.source, f.target) = true) :
    (insertEdge e fs).Pairwise
      fun e f ↦ pairLt (e.source, e.target) (f.source, f.target) = true := by
  induction fs with
  | nil => exact List.pairwise_singleton _ e
  | cons d fs ih =>
    obtain ⟨hd, hfs⟩ := List.pairwise_cons.mp h
    rw [insertEdge]
    split
    · rename_i hlt
      refine List.pairwise_cons.mpr ⟨List.forall_mem_cons.mpr ⟨hlt, fun f hf ↦ ?_⟩, h⟩
      have hdf := hd f hf
      rw [pairLt_iff] at hlt hdf ⊢
      omega
    · split
      · rename_i heq
        refine List.pairwise_cons.mpr ⟨fun f hf ↦ ?_, hfs⟩
        rw [heq.1, heq.2]
        exact hd f hf
      · rename_i hge hne
        refine List.pairwise_cons.mpr ⟨forall_insertEdge ?_ hd, ih hfs⟩
        rw [pairLt_iff] at hge ⊢
        omega

theorem Sorted.mergeEdge (h : graph.Sorted) (e : Edge) : (graph.mergeEdge e).Sorted := by
  unfold Graph.mergeEdge
  split
  · exact h
  · split
    · exact pairwise_insertEdge h
    · exact pairwise_insertEdge h

theorem Sorted.addEdge (h : graph.Sorted) (source target : Nat) :
    (graph.addEdge source target).Sorted := by
  unfold Graph.addEdge
  split
  · exact pairwise_insertEdge h
  · exact h

theorem Sorted.mapNodes (h : graph.Sorted) (change : Node sp → Node sp) :
    (graph.mapNodes change).Sorted := h

/-- New facts do not change the order. -/
theorem Sorted.annotateEdges (h : graph.Sorted) (touched : Nat → Nat → Bool) :
    (graph.annotateEdges g touched).Sorted := by
  have hends : ∀ e : Edge, ∀ facts : List Fact, ∀ b : Bool,
      (if b then { e with facts } else e).source = e.source ∧
        (if b then { e with facts } else e).target = e.target := fun e facts b ↦ by
    split
    · exact ⟨rfl, rfl⟩
    · exact ⟨rfl, rfl⟩
  refine List.pairwise_map.mpr (h.imp fun {e f} hlt ↦ ?_)
  rw [(hends e _ _).1, (hends e _ _).2, (hends f _ _).1, (hends f _ _).2]
  exact hlt

theorem Sorted.absorb (h : graph.Sorted) (parent child : Nat) :
    (graph.absorb parent child).Sorted := by
  have hfold : ∀ (es : List Edge) (rest : Graph sp), rest.Sorted →
      (es.foldl (fun rest e ↦ rest.mergeEdge (reroute parent child e)) rest).Sorted := by
    intro es
    induction es with
    | nil => exact fun _ hrest ↦ hrest
    | cons e es ih => exact fun rest hrest ↦ ih _ (hrest.mergeEdge _)
  unfold Graph.absorb
  split
  · exact h
  · exact hfold _ _ (h.filter _)

/-! ## Stages of the search -/

namespace Merging

/-- What is known of a search that has begun with `graph`. -/
structure Stage (graph : Graph sp) (s : Merging sp) : Prop where
  rooted : s.graph.Rooted
  sorted : graph.Sorted → s.graph.Sorted
  quotient : ∃ f, Quotient f graph s.graph
  length : s.graph.nodes.length + s.folded.length = graph.nodes.length
  ids : ∀ n ∈ s.graph.nodes, ∃ m ∈ graph.nodes, m.id = n.id
  queue : ∀ id ∈ s.queue, ∃ m ∈ graph.nodes, m.id = id

variable {s : Merging sp} {id child : Nat}

theorem Stage.mem_children (h : Stage graph s) (hchild : child ∈ s.graph.children id) :
    ∃ m ∈ graph.nodes, m.id = child := by
  obtain ⟨-, ⟨m, hm, rfl⟩, -⟩ := h.rooted.ends _ _ (Graph.mem_children.mp hchild)
  exact h.ids m hm

/-- There is an attractor of the number `id` to look at. -/
def Looks (s : Merging sp) (id : Nat) : Prop :=
  ∃ n ∈ s.graph.nodes, n.id = id ∧ n.kind.isAttractor = true

/-- **Looking at one child.** -/
theorem Stage.visitChild (h : Stage graph s) (hr : graph.Rooted) (hid : s.Looks id)
    (hchild : ∃ m ∈ graph.nodes, m.id = child) (hne : id ≠ child) :
    Stage graph (s.visitChild id child) ∧ (s.visitChild id child).Looks id := by
  unfold Merging.visitChild
  split
  · rename_i hfold
    rw [foldable, Bool.and_eq_true, Option.any_eq_true] at hfold
    obtain ⟨⟨m, hnode, hkind'⟩, -⟩ := hfold
    obtain ⟨hm, rfl⟩ := mem_of_node?_eq_some hnode
    obtain ⟨n, hn, rfl, hkind⟩ := hid
    have hs := h.rooted.toSimple
    have habsorb := quotient_absorb hn hm hne h.rooted hkind hkind'
    obtain ⟨f, hf⟩ := h.quotient
    refine ⟨{
      rooted := habsorb.rooted h.rooted (ascending_absorb hs hm)
      sorted := fun hsorted ↦ (h.sorted hsorted).absorb _ _
      quotient := ⟨_, hf.trans hr.toSimple habsorb⟩
      length := ?_
      ids := fun k hk ↦ ?_
      queue := fun id hid ↦ ?_ }, unite n m, ?_, rfl, hkind⟩
    · rw [List.length_append, List.length_singleton, Nat.add_comm s.folded.length,
        ← Nat.add_assoc, ← h.length]
      exact congrArg (· + _) (length_absorb hs hm)
    · rcases (mem_nodes_absorb hs hn hm hne).mp hk with rfl | ⟨hk, -⟩
      · exact h.ids n hn
      · exact h.ids k hk
    · rcases List.mem_append.mp hid with hid | hid
      · exact h.queue id hid
      · exact h.mem_children (List.mem_filter.mp hid).1
    · exact (mem_nodes_absorb hs hn hm hne).mpr (Or.inl rfl)
  · refine ⟨{ h with queue := fun id' hid' ↦ ?_ }, hid⟩
    rcases List.mem_append.mp hid' with hid' | hid'
    · exact h.queue id' hid'
    · rwa [List.mem_singleton.mp hid']

theorem Stage.visitChildren {children : List Nat} (h : Stage graph s) (hr : graph.Rooted)
    (hid : s.Looks id)
    (hchildren : ∀ child ∈ children, (∃ m ∈ graph.nodes, m.id = child) ∧ id ≠ child) :
    Stage graph (children.foldl (fun s child ↦ s.visitChild id child) s) := by
  induction children generalizing s with
  | nil => exact h
  | cons child children ih =>
    rw [List.foldl_cons]
    obtain ⟨hchild, hne⟩ := hchildren child List.mem_cons_self
    obtain ⟨hstage, hid'⟩ := h.visitChild hr hid hchild hne
    exact ih hstage hid' fun c hc ↦ hchildren c (List.mem_cons_of_mem _ hc)

/-- The children of a node are nodes from the beginning, and others than the node. -/
theorem Stage.of_mem_children (h : Stage graph s) (hchild : child ∈ s.graph.children id) :
    (∃ m ∈ graph.nodes, m.id = child) ∧ id ≠ child :=
  ⟨h.mem_children hchild, (h.rooted.ends _ _ (Graph.mem_children.mp hchild)).2.2⟩

/-- **Looking at one node.** -/
theorem Stage.visit (h : Stage graph s) (hr : graph.Rooted) (id : Nat) :
    Stage graph (s.visit id) := by
  unfold Merging.visit
  split
  · exact h
  · rename_i n hnode
    obtain ⟨hn, hid⟩ := mem_of_node?_eq_some hnode
    dsimp only
    split
    · rename_i hkind
      exact h.visitChildren hr ⟨n, hn, hid, hkind⟩ fun _ hchild ↦ h.of_mem_children hchild
    · refine { h with queue := fun id' hid' ↦ ?_ }
      rcases List.mem_append.mp hid' with hid' | hid'
      · exact h.queue id' hid'
      · exact h.mem_children hid'

theorem nextUnseen?_eq_some {seen queue rest : List Nat} {id : Nat}
    (h : nextUnseen? seen queue = some (id, rest)) :
    id ∉ seen ∧ ∃ front, (∀ k ∈ front, k ∈ seen) ∧ queue = front ++ id :: rest := by
  induction queue with
  | nil => simp [nextUnseen?] at h
  | cons n queue ih =>
    rw [nextUnseen?] at h
    split at h
    · rename_i hn
      obtain ⟨hid, front, hfront, rfl⟩ := ih h
      exact ⟨hid, n :: front, List.forall_mem_cons.mpr ⟨hn, hfront⟩, rfl⟩
    · rename_i hn
      rw [Option.some.injEq, Prod.mk.injEq] at h
      obtain ⟨rfl, rfl⟩ := h
      exact ⟨hn, [], fun _ hk ↦ absurd hk List.not_mem_nil, rfl⟩

/-- The search goes on with what is left of the queue. -/
theorem Stage.dequeue (h : Stage graph s) {seen queue : List Nat} {id : Nat}
    (hnext : nextUnseen? seen s.queue = some (id, queue)) :
    Stage graph { s with queue } ∧ ∃ m ∈ graph.nodes, m.id = id := by
  obtain ⟨-, front, -, hqueue⟩ := nextUnseen?_eq_some hnext
  refine ⟨{ h with queue := fun k hk ↦ h.queue k ?_ }, h.queue id ?_⟩
  · rw [hqueue]
    exact List.mem_append_right _ (List.mem_cons_of_mem _ hk)
  · rw [hqueue]
    exact List.mem_append_right _ List.mem_cons_self

/-- What one round preserves, the search preserves. -/
theorem Stage.run (hr : graph.Rooted) (fuel : Nat) (seen : List Nat) (h : Stage graph s) :
    Stage graph (run fuel seen s) := by
  induction fuel generalizing seen s with
  | zero => exact h
  | succ fuel ih =>
    rw [Merging.run]
    split
    · exact h
    · rename_i id queue hnext
      exact ih (id :: seen) ((h.dequeue hnext).1.visit hr id)

theorem stage_start (hr : graph.Rooted) : Stage graph ⟨graph, [initialId], [], []⟩ where
  rooted := hr
  sorted := fun h ↦ h
  quotient := ⟨id, Quotient.refl hr.toSimple⟩
  length := rfl
  ids := fun n hn ↦ ⟨n, hn, rfl⟩
  queue := fun id hid ↦ by
    obtain ⟨n, hn, hn0, -⟩ := hr.root
    rw [List.mem_singleton.mp hid]
    exact ⟨n, hn, hn0⟩

end Merging

theorem stage_merging (hr : graph.Rooted) : Merging.Stage graph graph.merging :=
  (Merging.stage_start hr).run hr _ _

/-! ## The merged graph -/

/-- Numbering through comes last, after a search and new facts of edges. -/
theorem exists_merged (graph : Graph sp) (refresh : Bool) : ∃ merged : Graph sp,
    graph.mergeAttractors g refresh = merged.renumber ∧
      merged.nodes = graph.merging.graph.nodes ∧
      ∀ a b, merged.Joins a b ↔ graph.merging.graph.Joins a b := by
  unfold mergeAttractors
  dsimp only
  split
  · exact ⟨_, rfl, rfl, fun _ _ ↦ joins_annotateEdges⟩
  · exact ⟨_, rfl, rfl, fun _ _ ↦ Iff.rfl⟩

/-- **What merging leaves**: a quotient numbered from 0 on, which lacks a node for every folding. -/
theorem exists_quotient_mergeAttractors (hr : graph.Rooted) (refresh : Bool) :
    (∃ f, Quotient f graph (graph.mergeAttractors g refresh)) ∧
      (graph.mergeAttractors g refresh).nodes.length + graph.foldings.length
        = graph.nodes.length ∧
      (graph.mergeAttractors g refresh).nodes.map (·.id)
        = List.range (graph.mergeAttractors g refresh).nodes.length := by
  have hstage := stage_merging hr
  obtain ⟨f, hf⟩ := hstage.quotient
  obtain ⟨merged, hmerged, hnodes, hjoins⟩ := exists_merged (g := g) graph refresh
  have hsame := quotient_of_nodes_eq hstage.rooted.toSimple hnodes hjoins
  have hr' : merged.Rooted := hsame.rooted hstage.rooted (hnodes ▸ hstage.rooted.ascending)
  have hlength : merged.renumber.nodes.length = merged.nodes.length := List.length_map _
  rw [hmerged]
  refine ⟨⟨_, (hf.trans hr.toSimple hsame).trans hr.toSimple (quotient_renumber hr')⟩, ?_, ?_⟩
  · rw [hlength, hnodes]
    exact hstage.length
  · rw [hlength]
    exact ids_renumber hr'.toSimple

/-- Numbers from 0 on ascend. -/
theorem ascending_of_ids {ns : List (Node sp)} (h : ns.map (·.id) = List.range ns.length) :
    ns.Pairwise fun n m ↦ n.id < m.id := by
  have hrange : (ns.map (·.id)).Pairwise (· < ·) := by
    rw [h]
    exact List.pairwise_lt_range
  rwa [List.pairwise_map] at hrange

end JusticeViolation.Graph

import JusticeViolation.Construction
import JusticeViolation.Proofs.Decomposition.Process
import JusticeViolation.Proofs.StateSet.Sample

/-!
# The run over all ranks

The start puts the ranks that the marker leads to into the queue, with some initial states of each
cell. From there one rank after another is taken up, each below those before it, so there are no
more rounds than ranks and the queue is empty in the end. What awaited a rank on the way lies in a
child of the node that led there.
-/

namespace JusticeViolation

variable {sp : Space} {g : Game sp} {ranking : Ranking sp}

namespace Decomposition

/-! ## The start -/

section Start

variable {item : Item sp} (h : g.Shaped) (ho : g.OfStates) (hf : item.Fits g)

include h ho hf

/-- Initial start points are states, and they lie in their cells. -/
theorem of_mem_initialStarts {p : Nat × Nat × StateSet sp} (hp : p ∈ initialStarts g item) :
    p.2.2.Untagged g.marker ∧
      ∀ i ∈ p.2.2, i ∈ g.initial ∧ i ∈ cellAt item.cells p.1 p.2.1 := by
  obtain ⟨⟨row, column, part⟩, hpart, rfl⟩ := List.mem_map.mp hp
  obtain ⟨rfl, -⟩ := Item.mem_parts.mp hpart
  have huntagged : (g.initial ∩ cellAt item.cells row column).Untagged g.marker :=
    ho.initial.inter (Item.untagged_cell ho hf row column)
  dsimp only
  cases hc : (g.initial ∩ cellAt item.cells row column).sampleCube? g.envIds with
  | none => exact ⟨huntagged, fun i hi ↦ StateSet.mem_inter.mp hi⟩
  | some cube =>
    obtain ⟨s, -, hcube⟩ := StateSet.exists_of_sampleCube?_eq_some
      (fun x hx ↦ (sp.registry.mem_roleIds hx).1) hc
    refine ⟨huntagged.inter fun i j hi hj hij ↦ ?_, fun i hi ↦
      StateSet.mem_inter.mp (StateSet.mem_inter.mp hi).1⟩
    rw [hcube, hcube, and_iff_right hi, and_iff_right hj]
    refine forall₂_congr fun x hx ↦ ?_
    rw [hij x ⟨(sp.registry.mem_roleIds hx).2, ?_⟩]
    exact fun e ↦ h.marker_not_mem .env (by decide) false (e ▸ hx)

omit ho in
/-- If the layers cover the rank and there is an initial state in it, then there is one among the
start points. -/
theorem exists_mem_initialStarts (hcover : g.RowsCover) {i : Nat} (hi : i ∈ g.initial)
    (hl : i ∈ g.level item.node.rank) : ∃ p ∈ initialStarts g item, ∃ j, j ∈ p.2.2 := by
  obtain ⟨hrank, hbelow⟩ := Game.mem_level.mp hl
  obtain ⟨k, hk⟩ := hcover item.node.rank 0 i (Game.lt_numRanks_of_mem_rank hrank)
    h.numRows_pos hrank hbelow
  obtain ⟨column, -, hfirst⟩ := Game.exists_firstIn hk
  have hmem : i ∈ g.initial ∩ cellAt item.cells 0 column :=
    StateSet.mem_inter.mpr ⟨hi, hf.mem_cell.mpr ⟨hl, hfirst⟩⟩
  refine ⟨_, List.mem_map_of_mem (Item.mem_parts.mpr ⟨rfl, i, hmem⟩), ?_⟩
  dsimp only
  cases hc : (g.initial ∩ cellAt item.cells 0 column).sampleCube? g.envIds with
  | none => exact ⟨i, hmem⟩
  | some cube =>
    obtain ⟨s, hs, hcube⟩ := StateSet.exists_of_sampleCube?_eq_some
      (fun x hx ↦ (sp.registry.mem_roleIds hx).1) hc
    exact ⟨s, StateSet.mem_inter.mpr ⟨hs, (hcube s).mpr ⟨StateSet.lt_size hs, fun _ _ ↦ rfl⟩⟩⟩

end Start

section Fold

variable (h : g.Shaped) (ho : g.OfStates) (hr : g.ranking? = some ranking)

include h ho hr

private theorem queued_startFold {bound : Nat} {nodes : List (RankNode sp)}
    (hnodes : ∀ n ∈ nodes, n ∈ ranking.nodes ∧ n.rank < bound) {d : Decomposition sp}
    (hq : d.Queued g ranking bound) :
    let d' := nodes.foldl (fun d node ↦ d.enqueue g node fun item ↦
      item.addStarts (initialStarts g item) Graph.initialId) d
    d'.Queued g ranking bound ∧ d'.graph = d.graph ∧
      (∀ id i, d.Awaits id i → d'.Awaits id i) ∧
      (g.RowsCover → ∀ n ∈ nodes, ∀ i ∈ g.initial, i ∈ n.states →
        ∃ j ∈ g.initial, j ∈ g.level n.rank ∧ d'.Awaits Graph.initialId j) := by
  induction nodes generalizing d with
  | nil => exact ⟨hq, rfl, fun _ _ hi ↦ hi, fun _ n hn ↦ absurd hn List.not_mem_nil⟩
  | cons node nodes ih =>
    obtain ⟨hnode, hlt⟩ := hnodes node List.mem_cons_self
    have hstarts : ∀ item : Item sp, item.Fits g →
        (item.addStarts (initialStarts g item) Graph.initialId).Fits g := fun item hf ↦
      hf.addStarts fun p hp ↦ by
        obtain ⟨huntagged, hmem⟩ := of_mem_initialStarts h ho hf hp
        exact ⟨huntagged, fun i hi ↦ (hmem i hi).2⟩
    obtain ⟨hq', hkept, item, hf, hitem, hchanged⟩ := hq.enqueue h hr
      (fun item ↦ item.addStarts (initialStarts g item) Graph.initialId) hnode hlt
      (fun _ ↦ rfl) (fun item hf _ ↦ hstarts item hf) fun _ _ _ hi ↦ Item.awaits_addStarts hi
    rw [List.foldl_cons]
    obtain ⟨hqueued, hgraph, hawaits, hall⟩ :=
      ih (fun n hn ↦ hnodes n (List.mem_cons_of_mem _ hn)) hq'
    refine ⟨hqueued, hgraph, fun id i hi ↦ hawaits id i (hkept id i hi),
      fun hcover n hn i hi his ↦ ?_⟩
    rcases List.mem_cons.mp hn with rfl | hn
    · rw [← hitem, hf.states_eq] at his
      obtain ⟨p, hp, j, hj⟩ := exists_mem_initialStarts h hf hcover hi his
      obtain ⟨hinitial, hcell⟩ := (of_mem_initialStarts h ho hf hp).2 j hj
      exact ⟨j, hinitial, hitem ▸ (hf.mem_cell.mp hcell).1,
        hawaits _ _ ⟨_, hchanged, Item.awaits_addStarts_of_mem hp hj⟩⟩
    · exact hall hcover n hn i hi his

/-- **The start** is sound, and if an initial state lies in some rank, then one of it awaits it. -/
theorem sound_start :
    (start g ranking).Sound g ranking g.numRanks ∧
      (∀ n ∈ (start g ranking).graph.nodes, n.id = Graph.initialId) ∧
      (g.RowsCover → ∀ r, ∀ i ∈ g.initial, i ∈ g.level r →
        ∃ j ∈ g.initial, j ∈ g.level r ∧ (start g ranking).Awaits Graph.initialId j) := by
  have hnodes : ∀ n ∈ ranking.entries.filterMap ranking.node?,
      n ∈ ranking.nodes ∧ n.rank < g.numRanks := by
    intro n hn
    obtain ⟨r, -, hrn⟩ := List.mem_filterMap.mp hn
    have hmem := (Ranking.mem_of_node?_eq_some hrn).1
    exact ⟨hmem, Ranking.rank_lt_numRanks hr hmem⟩
  obtain ⟨hqueued, hgraph, -, hall⟩ := queued_startFold h ho hr hnodes
    (d := ⟨Graph.empty.addNode ⟨Graph.initialId, none, g.initial, ∅, [], .initial⟩, [], [], []⟩)
    ⟨List.Pairwise.nil, fun _ hi ↦ absurd hi List.not_mem_nil,
      fun _ hi ↦ absurd hi List.not_mem_nil, fun _ hi ↦ absurd hi List.not_mem_nil,
      fun _ hi ↦ absurd hi List.not_mem_nil⟩
  change (start g ranking).Queued g ranking g.numRanks at hqueued
  change (start g ranking).graph = _ at hgraph
  have hsingle : ∀ n ∈ (start g ranking).graph.nodes,
      n = ⟨Graph.initialId, none, g.initial, ∅, [], .initial⟩ := fun n hn ↦ by
    rw [hgraph] at hn
    exact List.mem_singleton.mp hn
  refine ⟨{ hqueued with
    wellFormed := ?_
    initial_eq := fun n hn _ ↦ by
      rw [hsingle n hn]
      exact ⟨rfl, rfl⟩
    origin := ⟨fun _ ↦ g.item ⟨0, ∅, []⟩, fun n hn h0 ↦ absurd (by rw [hsingle n hn]) h0⟩ },
    fun n hn ↦ by rw [hsingle n hn], fun hcover r i hi hl ↦ ?_⟩
  · rw [hgraph]
    exact Graph.wellFormed_initial rfl rfl
  · obtain ⟨n, hn, rfl⟩ := Ranking.exists_node h hr hl
    refine hall hcover n ?_ i hi (by rwa [Ranking.states_eq h hr hn])
    exact List.mem_filterMap.mpr
      ⟨n.rank, Ranking.mem_entries_of_initial h hr hi hl, Ranking.node?_eq_some hr hn⟩

end Fold

/-! ## One rank after another -/

section Run

variable {o : Options} (h : g.Shaped) (ho : g.OfStates) (hr : g.ranking? = some ranking)

/-- The ranks that can still be taken up below `bound`. -/
def remaining (ranking : Ranking sp) (bound : Nat) : Nat :=
  ranking.nodes.countP fun n ↦ n.rank < bound

theorem remaining_lt {n : RankNode sp} (hn : n ∈ ranking.nodes) {bound : Nat}
    (hlt : n.rank < bound) : remaining ranking n.rank < remaining ranking bound :=
  Graph.countP_lt_countP
    (fun _ _ hm ↦ decide_eq_true ((of_decide_eq_true hm).trans hlt)) hn
    (fun hn ↦ Nat.lt_irrefl _ (of_decide_eq_true hn)) (decide_eq_true hlt)

include h ho hr

/-- Taking up the first rank of the queue, if it succeeds. -/
theorem advances_of_process {bound : Nat} {d d' : Decomposition sp}
    (hd : d.Sound g ranking bound) {item : Item sp} {rest : List (Item sp)}
    (hqueue : d.queue = item :: rest)
    (hp : ({ d with queue := rest } : Decomposition sp).process g o ranking item = .ok d') :
    Advances g ranking item d d' := by
  obtain ⟨hv, body, hbody⟩ := explored_of_process hp
  obtain ⟨d'', hok, hadvances⟩ := exists_process h ho hr hd hqueue hv hbody
  rw [hp, Except.ok.injEq] at hok
  exact hok ▸ hadvances

/-- **What every rank preserves**, the run preserves; and it does not end before the queue does. -/
theorem run_induction {P : Decomposition sp → Prop}
    (hstep : ∀ {bound : Nat} {d d' : Decomposition sp} {item : Item sp} {rest : List (Item sp)},
      d.Sound g ranking bound → d.queue = item :: rest →
      ({ d with queue := rest } : Decomposition sp).process g o ranking item = .ok d' →
      Advances g ranking item d d' → P d → P d')
    {fuel bound : Nat} {d d' : Decomposition sp} (hd : d.Sound g ranking bound) (hP : P d)
    (hfuel : remaining ranking bound < fuel) (hrun : d.run g o ranking fuel = .ok d') :
    d'.queue = [] ∧ (∃ b, d'.Sound g ranking b) ∧ P d' := by
  induction fuel generalizing bound d with
  | zero => exact absurd hfuel (Nat.not_lt_zero _)
  | succ fuel ih =>
    rw [run] at hrun
    split at hrun
    · rename_i hqueue
      cases hrun
      exact ⟨hqueue, ⟨bound, hd⟩, hP⟩
    · rename_i item rest hqueue
      cases hp : ({ d with queue := rest } : Decomposition sp).process g o ranking item with
      | error e =>
        rw [hp] at hrun
        cases hrun
      | ok d₁ =>
        rw [hp] at hrun
        have hadvances := advances_of_process h ho hr hd hqueue hp
        have hitem : item ∈ d.queue := hqueue ▸ List.mem_cons_self
        have hlt := remaining_lt (hd.mem_nodes item hitem) (hd.below item hitem)
        exact ih hadvances.sound (hstep hd hqueue hp hadvances hP) (by omega) hrun

/-- **A run succeeds** if every rank that it takes up does. -/
theorem exists_run
    (hall : ∀ item : Item sp, item.node ∈ ranking.nodes →
      item.Ready g (lower ranking item.node) →
      (item.split g (lower ranking item.node)).tracing.violation = none ∧ ∃ body,
        cycleBody g o item.node.rank (item.split g (lower ranking item.node)) = .ok body)
    {fuel bound : Nat} {d : Decomposition sp} (hd : d.Sound g ranking bound) :
    ∃ d', d.run g o ranking fuel = .ok d' := by
  induction fuel generalizing bound d with
  | zero => exact ⟨d, rfl⟩
  | succ fuel ih =>
    rw [run]
    split
    · exact ⟨d, rfl⟩
    · rename_i item rest hqueue
      have hitem : item ∈ d.queue := hqueue ▸ List.mem_cons_self
      obtain ⟨hv, body, hbody⟩ := hall item (hd.mem_nodes item hitem)
        (ready_of_mem_queue h ho hr hd.toQueued hitem)
      obtain ⟨d₁, hok, hadvances⟩ := exists_process h ho hr hd hqueue hv hbody
      obtain ⟨d', hrun⟩ := ih hadvances.sound
      refine ⟨d', ?_⟩
      rw [hok]
      exact hrun

end Run

/-! ## What the run preserves -/

/-- What the committed choices of a node lead to lies in the node or is served. -/
def Complete (g : Game sp) (d : Decomposition sp) : Prop :=
  ∀ n ∈ d.graph.nodes, n.id ≠ Graph.initialId → ∀ v ∈ n.transitions, v ∈ g.sysTrans →
    sp.next v ∈ g.strip n.states ∨ d.Served g n.id (sp.next v)

section Preserves

variable {bound : Nat} {item : Item sp} {d d' : Decomposition sp}

theorem Sound.exists_from (hd : d.Sound g ranking bound) {n : Node sp} (hn : n ∈ d.graph.nodes)
    (h0 : n.id ≠ Graph.initialId) : ∃ item : Item sp, n.From g ranking item := by
  obtain ⟨items, horigin⟩ := hd.origin
  obtain ⟨r, -, -, hfrom⟩ := horigin n hn h0
  exact ⟨items r, hfrom⟩

theorem Complete.advances (h : g.Shaped) (hcover : g.RowsCover) (hd : d.Sound g ranking bound)
    (ha : Advances g ranking item d d') (hc : d.Complete g) : d'.Complete g := by
  intro n hn h0 v hv hsys
  rcases ha.new n hn with hold | ⟨-, -, hnew⟩
  · obtain ⟨item', hfrom⟩ := hd.exists_from hold h0
    refine (hc n hold h0 v hv hsys).imp_right fun hserved ↦ ?_
    refine ha.served n.id _ _ (Graph.arrivals?_of_mem hd.wellFormed hold h0) ?_ hserved
    exact h.mem_strip_of_mem (Game.current_image _ _)
      (Game.next_mem_image (hfrom.mem_states hv) hv hsys)
  · exact hnew hcover v hv hsys

theorem Advances.served_initial (ha : Advances g ranking item d d') {i : Nat}
    (hi : i ∈ g.initial) (hs : d.Served g Graph.initialId i) : d'.Served g Graph.initialId i :=
  ha.served Graph.initialId i g.initial rfl hi hs

end Preserves

/-- **A finished decomposition**: every node is a part of a rank, with one item for each rank;
nothing that a node leads to is lost, and neither is the start of the game. -/
structure Finished (g : Game sp) (ranking : Ranking sp) (graph : Graph sp) : Prop where
  wellFormed : graph.WellFormed
  initial_eq : ∀ n ∈ graph.nodes, n.id = Graph.initialId →
    n.states = g.initial ∧ n.transitions = ∅
  origin : ∃ items : Nat → Item sp, ∀ n ∈ graph.nodes, n.id ≠ Graph.initialId →
    ∃ r, (items r).node.rank = r ∧ n.From g ranking (items r)
  complete : g.RowsCover → ∀ n ∈ graph.nodes, n.id ≠ Graph.initialId →
    ∀ v ∈ n.transitions, v ∈ g.sysTrans → sp.next v ∈ g.strip n.states ∨
      ∃ m ∈ graph.nodes, graph.Joins n.id m.id ∧ sp.next v ∈ g.strip m.states
  rooted : g.RowsCover → ∀ r, ∀ i ∈ g.initial, i ∈ g.level r →
    ∃ m ∈ graph.nodes, graph.Joins Graph.initialId m.id

section Decompose

variable {o : Options} (h : g.Shaped) (ho : g.OfStates) (hr : g.ranking? = some ranking)

theorem remaining_le (ranking : Ranking sp) (bound : Nat) :
    remaining ranking bound < ranking.nodes.length + 1 :=
  Nat.lt_succ_of_le List.countP_le_length

/-- With an empty queue, what is served lies in a child. -/
private theorem exists_child_of_served {d : Decomposition sp} (hqueue : d.queue = []) {id i : Nat}
    (hs : d.Served g id i) : ∃ m ∈ d.graph.nodes, d.graph.Joins id m.id ∧ i ∈ g.strip m.states := by
  rcases hs with hchild | ⟨item, hitem, -⟩
  · exact hchild
  · rw [hqueue] at hitem
    exact absurd hitem List.not_mem_nil

include h ho hr

theorem finished_of_decompose {d : Decomposition sp} (hd : g.decompose o ranking = .ok d) :
    Finished g ranking d.graph := by
  obtain ⟨hstart, hroot, hrooted⟩ := sound_start h ho hr
  have hfuel := remaining_le ranking g.numRanks
  obtain ⟨hqueue, ⟨b, hsound⟩, -⟩ := run_induction h ho hr (P := fun _ ↦ True)
    (fun _ _ _ _ _ ↦ trivial) hstart trivial hfuel hd
  obtain ⟨items, horigin⟩ := hsound.origin
  refine {
    wellFormed := hsound.wellFormed
    initial_eq := hsound.initial_eq
    origin := ⟨items, fun n hn h0 ↦ ?_⟩
    complete := fun hcover ↦ ?_
    rooted := fun hcover r i hi hl ↦ ?_ }
  · obtain ⟨r, -, hrank, hfrom⟩ := horigin n hn h0
    exact ⟨r, hrank, hfrom⟩
  · obtain ⟨-, -, hcomplete⟩ := run_induction h ho hr (P := Complete g)
      (fun hd _ _ ha hc ↦ Complete.advances h hcover hd ha hc) hstart
      (fun n hn h0 ↦ absurd (hroot n hn) h0) hfuel hd
    exact fun n hn h0 v hv hsys ↦ (hcomplete n hn h0 v hv hsys).imp_right
      (exists_child_of_served hqueue)
  · obtain ⟨j, hj, -, hawaits⟩ := hrooted hcover r i hi hl
    obtain ⟨-, -, hserved⟩ := run_induction h ho hr
      (P := fun d ↦ d.Served g Graph.initialId j)
      (fun _ _ _ ha hs ↦ ha.served_initial hj hs) hstart (Or.inr hawaits) hfuel hd
    obtain ⟨m, hm, hjoins, -⟩ := exists_child_of_served hqueue hserved
    exact ⟨m, hm, hjoins⟩

end Decompose

theorem Finished.exists_from {graph : Graph sp} (h : Finished g ranking graph) {n : Node sp}
    (hn : n ∈ graph.nodes) (hkind : n.kind ≠ .initial) :
    ∃ item : Item sp, n.From g ranking item := by
  obtain ⟨items, horigin⟩ := h.origin
  obtain ⟨r, -, hfrom⟩ := horigin n hn (h.wellFormed.id_ne_initialId hn hkind)
  exact ⟨items r, hfrom⟩

theorem Finished.current {graph : Graph sp} (hs : g.Shaped) (ho : g.OfStates)
    (h : Finished g ranking graph) {n : Node sp} (hn : n ∈ graph.nodes) : n.states.Current := by
  by_cases h0 : n.id = Graph.initialId
  · rw [(h.initial_eq n hn h0).1]
    exact ho.initial.current
  · obtain ⟨items, horigin⟩ := h.origin
    obtain ⟨r, -, hfrom⟩ := horigin n hn h0
    exact hfrom.current hs ho

end Decomposition

end JusticeViolation

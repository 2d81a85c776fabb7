import JusticeViolation.Proofs.Decomposition.Run

/-!
# How a rank is entered

Everything on the paths of a rank is led to from a start point, and a start point holds only states
that one of its sources leads to. So an edge from an earlier node leads to the cycle, or to an
approach that leads to the cycle. For the other parts this may fail. A state that is on the cycle
under one tag is dropped from the approach under all of them, and its copies under the other tags,
which may be committed to other choices, belong to no node: what is reached through such copies only
is an approach or a descent without a parent. With a single row no state has a copy, and every part
is entered.
-/

namespace JusticeViolation

variable {sp : Space} {g : Game sp}

/-! ## The parts that are entered -/

namespace Item

variable {item : Item sp} {lower : StateSet sp}

/-- The state `i` is held by a start point of the item. -/
def Expects (item : Item sp) (i : Nat) : Prop := ∃ p ∈ item.starts, i ∈ p.states

namespace Ready

variable (hg : g.Shaped) (ho : g.OfStates) (h : item.Ready g lower)

include hg ho h

omit ho in
theorem expects_of_seed {i : Nat} (hi : Held (item.seeds g (item.maze g lower).cells) i) :
    item.Expects i := by
  obtain ⟨q, hq, hi⟩ := hi
  obtain ⟨p, hp, rfl⟩ := List.mem_map.mp (List.mem_filter.mp hq).1
  obtain ⟨hcell, htag⟩ := StateSet.mem_inter.mp hi
  have hrow : p.row < g.numRows := length_cells hg h ▸ row_lt_of_mem_cellAt hcell
  exact ⟨p, hp, ((hg.mem_tag hrow).mp htag).1⟩

variable (hv : (item.split g lower).tracing.violation = none)

include hv

/-- What is on the paths is led to from the seeds. -/
theorem led_of_onPath {i : Nat} (hi : i ∈ onPath g item lower) :
    Led g (item.split g lower).tracing.inner (Held (item.seeds g (item.maze g lower).cells))
      (· ∈ onPath g item lower) i :=
  ((sound_tracing hg ho h hv).led i (mem_onPath.mp hi)).mono (fun _ hv ↦ hv)
    fun _ hv ↦ mem_onPath.mpr hv

/-- If there are paths, then some state on them is expected. -/
theorem exists_expected {i : Nat} (hi : i ∈ onPath g item lower) :
    ∃ j ∈ onPath g item lower, item.Expects j := by
  obtain ⟨j, hj⟩ := (led_of_onPath hg ho h hv hi).exists_start
  exact ⟨j, mem_onPath.mpr ((sound_tracing hg ho h hv).held j hj), expects_of_seed hg h hj⟩

/-- **The cycle is entered** where it is expected, or by a step from the approach. -/
theorem enters_cycle {i : Nat} (hi : i ∈ onPath g item lower)
    (hcycle : i ∈ g.strip (item.split g lower).cycle) :
    (∃ j, item.Expects j ∧ j ∈ g.strip (item.split g lower).cycle) ∨
      ∃ v ∈ (item.split g lower).approach, v ∈ (item.split g lower).tracing.inner ∧
        v ∈ g.sysTrans ∧ sp.next v ∈ g.strip (item.split g lower).cycle := by
  have hlt : i < sp.size := StateSet.lt_size hi
  induction led_of_onPath hg ho h hv hi with
  | start hseed => exact Or.inl ⟨_, expects_of_seed hg h hseed, hcycle⟩
  | @step v i _ hpath hin hsys hnext ih =>
    by_cases hvc : v ∈ g.strip (item.split g lower).cycle
    · exact ih hpath hvc (StateSet.lt_size hpath)
    · refine Or.inr ⟨v, mem_approach_of_onPath hg ho h hv hpath hvc, hin, hsys, ?_⟩
      refine ((hg.untagged_strip (current_cycle hg ho h hv)).current.mem_iff_of_now_eq
        (sp.next_lt v) hlt ?_).mpr hcycle
      rw [hnext, Space.now_now]

omit hv in
/-- **The descent is entered** where it is expected, or by a step from the paths. -/
theorem enters_descent {i : Nat} (hi : i ∈ (item.split g lower).descent) :
    (∃ j, item.Expects j ∧ j ∈ (item.split g lower).descent) ∨
      ∃ v ∈ onPath g item lower, v ∈ (item.split g lower).tracing.inner ∧ v ∈ g.sysTrans ∧
        sp.next v ∈ g.strip (item.split g lower).descent := by
  obtain ⟨j, hj⟩ := Game.exists_mem_of_mem_close hi
  have hjd : j ∈ (item.split g lower).descent := Game.mem_close_of_mem hj
  rcases StateSet.mem_union.mp (StateSet.mem_inter.mp hj).1 with hstarted | himage
  · obtain ⟨s, hs, hjs⟩ := StateSet.mem_unionAll.mp hstarted
    obtain ⟨p, hp, rfl⟩ := List.mem_map.mp hs
    exact Or.inl ⟨j, ⟨p, hp, hjs⟩, hjd⟩
  · obtain ⟨hjlt, k, hk, hkj⟩ := (hg.mem_strip (Game.current_image _ _)).mp himage
    obtain ⟨-, v, hvp, hin, hsys, hnext⟩ := Game.mem_image.mp hk
    refine Or.inr ⟨v, hvp, hin, hsys, (hg.mem_strip (current_descent hg ho h)).mpr
      ⟨sp.next_lt v, j, hjd, ?_⟩⟩
    rw [hnext, Space.bare_now, hkj]

/-- **With a single row the approach is entered** where it is expected: a committed step from the
cycle along the paths stays on the cycle, which holds all its states as they are. -/
theorem enters_approach (hone : g.numRows = 1) {i : Nat} (hi : i ∈ (item.split g lower).approach) :
    ∃ j, item.Expects j ∧ j ∈ (item.split g lower).approach := by
  have hpath := mem_onPath_of_approach hi
  have hlt : i < sp.size := StateSet.lt_size hi
  induction led_of_onPath hg ho h hv hpath with
  | start hseed => exact ⟨_, expects_of_seed hg h hseed, hi⟩
  | @step v i _ hvp hin hsys hnext ih =>
    have hnow : sp.now (sp.next v) = sp.now i := by rw [hnext, Space.now_now]
    have hvc : v ∉ g.strip (item.split g lower).cycle := fun hvc ↦ by
      have hvcycle := hg.mem_of_mem_strip hone (current_cycle hg ho h hv) hvc
      have hnextp := ((current_onPath hg ho h hv).mem_iff_of_now_eq (sp.next_lt v) hlt hnow).mpr
        hpath
      have hnextc := Game.next_mem_close hvcycle hin hsys hnextp
      refine (StateSet.mem_sdiff.mp hi).2 (hg.mem_strip_of_mem (current_cycle hg ho h hv) ?_)
      exact ((current_cycle hg ho h hv).mem_iff_of_now_eq (sp.next_lt v) hlt hnow).mp hnextc
    exact ih (mem_approach_of_onPath hg ho h hv hvp hvc) hvp (StateSet.lt_size hvp)

end Ready

/-! ## Sources -/

/-- Every state of a start point is one that a source of the start point leads to. -/
def Sourced (g : Game sp) (graph : Graph sp) (item : Item sp) : Prop :=
  ∀ p ∈ item.starts, ∀ i ∈ p.states, ∃ id ∈ p.sources, ∃ s,
    graph.arrivals? g id = some s ∧ i ∈ s

variable {graph graph' : Graph sp}

/-- A state that is expected awaits the item, reached from a node that leads to it. -/
theorem Sourced.exists_awaits (h : item.Sourced g graph) {i : Nat} (hi : item.Expects i) :
    ∃ id s, item.Awaits id i ∧ graph.arrivals? g id = some s ∧ i ∈ s := by
  obtain ⟨p, hp, hi⟩ := hi
  obtain ⟨id, hid, s, hs, his⟩ := h p hp i hi
  exact ⟨id, s, ⟨p, hp, hid, hi⟩, hs, his⟩

theorem Sourced.mono (h : item.Sourced g graph)
    (harrivals : ∀ id s, graph.arrivals? g id = some s → graph'.arrivals? g id = some s) :
    item.Sourced g graph' := fun p hp i hi ↦ by
  obtain ⟨id, hid, s, hs, his⟩ := h p hp i hi
  exact ⟨id, hid, s, harrivals id s hs, his⟩

theorem Sourced.addStarts (h : item.Sourced g graph) {source : Nat} {s : StateSet sp}
    (hs : graph.arrivals? g source = some s) {starts : List (Nat × Nat × StateSet sp)}
    (hsub : ∀ p ∈ starts, ∀ i ∈ p.2.2, i ∈ s) : (item.addStarts starts source).Sourced g graph := by
  refine forall_addStarts
    (fun p hp i hi ↦ ⟨source, List.mem_singleton_self _, s, hs, hsub p hp i hi⟩)
    (fun p hp q hq _ _ i hi ↦ ?_) h
  rcases StateSet.mem_union.mp hi with hi | hi
  · obtain ⟨id, hid, hrest⟩ := hq i hi
    exact ⟨id, mem_insertAscending.mpr (Or.inr hid), hrest⟩
  · exact ⟨source, mem_insertAscending.mpr (Or.inl rfl), s, hs, hsub p hp i hi⟩

theorem Sourced.offer (h : item.Sourced g graph) {source : Nat} {states : StateSet sp}
    (hs : graph.arrivals? g source = some states) : (item.offer states source).Sourced g graph := by
  refine h.addStarts hs fun p hp i hi ↦ ?_
  obtain ⟨row, column, part⟩ := p
  obtain ⟨rfl, -⟩ := mem_parts.mp hp
  exact (StateSet.mem_inter.mp hi).1

end Item

/-- What is known of how the nodes of a graph are entered. -/
structure Graph.Entered (g : Game sp) (graph : Graph sp) : Prop where
  parents_cycle : ∀ n ∈ graph.nodes, n.kind = .cycle → graph.parents n.id ≠ []
  reaches : g.numRows = 1 → ∀ n ∈ graph.nodes, graph.Reaches Graph.initialId n.id

namespace Decomposition

variable {ranking : Ranking sp} {d d' : Decomposition sp}

/-- Every item of the queue is sourced. -/
def Sourced (g : Game sp) (d : Decomposition sp) : Prop :=
  ∀ item ∈ d.queue, item.Sourced g d.graph

theorem Sourced.enqueue (h : d.Sourced g) {node : RankNode sp} {change : Item sp → Item sp}
    (hchange : ∀ item : Item sp, item.Sourced g d.graph → (change item).Sourced g d.graph) :
    (d.enqueue g node change).Sourced g :=
  forall_changeItem (hchange _ fun _ hp ↦ absurd hp List.not_mem_nil)
    (fun item hitem _ ↦ hchange item (h item hitem)) h

theorem sourced_start : (start g ranking).Sourced g := by
  refine start_induction (fun _ h ↦ absurd h List.not_mem_nil) fun d node _ h ↦
    h.enqueue fun item hitem ↦ hitem.addStarts rfl fun p hp i hi ↦ ?_
  obtain ⟨⟨row, column, part⟩, hpart, rfl⟩ := List.mem_map.mp hp
  obtain ⟨rfl, -⟩ := Item.mem_parts.mp hpart
  dsimp only at hi
  split at hi
  · exact (StateSet.mem_inter.mp hi).1
  · exact (StateSet.mem_inter.mp (StateSet.mem_inter.mp hi).1).1

/-- Queueing successors makes states start points that their source leads to. -/
theorem Sourced.queueSuccessors (h : d.Sourced g) {rank : Nat} {emitted : List Nat}
    (h0 : Graph.initialId ∉ emitted) (hok : d.queueSuccessors g ranking rank emitted = .ok d') :
    d'.Sourced g ∧ d'.graph = d.graph := by
  refine queueSuccessors_induction (P := fun d' ↦ d'.Sourced g ∧ d'.graph = d.graph)
    (fun d' other _ id hid n _ hn _ _ ⟨hs, hgraph⟩ ↦ ⟨?_, hgraph⟩) ⟨h, rfl⟩ hok
  refine Sourced.enqueue hs fun item hitem ↦ hitem.offer ?_
  rw [Graph.arrivals?, if_neg (ne_of_mem_of_not_mem hid h0), hn]
  rfl

/-! ## One rank -/

/-- The cycle of a rank is the only new node of its kind. -/
theorem Extends.mem_of_kind_cycle {item : Item sp} {emitted : List Nat} {na nc nd : List (Node sp)}
    (he : Extends g ranking item d d' emitted na nc nd) {n : Node sp} (hn : n ∈ na ++ nc ++ nd)
    (hkind : n.kind = .cycle) : n ∈ nc := by
  rcases List.mem_append.mp hn with hnac | hnd
  · rcases List.mem_append.mp hnac with hna | hnc
    · have happroach := (he.approach n hna).2
      rw [hkind] at happroach
      cases happroach
    · exact hnc
  · have hdescent := (he.descent n hnd).2
    rw [hkind] at hdescent
    cases hdescent

section Rank

variable {item : Item sp} {emitted : List Nat} {na nc nd : List (Node sp)} (hg : g.Shaped)
  (ho : g.OfStates) (hwf : d.graph.WellFormed) (he : Extends g ranking item d d' emitted na nc nd)
  (hready : item.Ready g (lower ranking item.node))
  (hv : (item.split g (lower ranking item.node)).tracing.violation = none)
  (hsourced : item.Sourced g d.graph)

include hwf he hsourced

/-- A new node that holds a state that is expected has an earlier one as a parent. -/
theorem Extends.exists_joins {m : Node sp} (hm : m ∈ na ++ nc ++ nd) {i : Nat}
    (hi : item.Expects i) (him : i ∈ g.strip m.states) :
    ∃ a ∈ d.graph.nodes, d'.graph.Joins a.id m.id := by
  obtain ⟨id, s, hawaits, hs, his⟩ := hsourced.exists_awaits hi
  obtain ⟨a, ha, rfl⟩ := Graph.exists_of_arrivals?_eq_some hwf hs
  exact ⟨a, ha, he.joins_of_awaits hwf hs his hawaits hm him⟩

include hg ho hready hv

/-- **The cycle of a rank is reached** from an earlier node: along an edge, or through the
approach. -/
theorem Extends.exists_reaches_cycle {n : Node sp} (hn : n ∈ nc) :
    ∃ a ∈ d.graph.nodes, d'.graph.Reaches a.id n.id := by
  have hnn : n ∈ na ++ nc ++ nd := List.mem_append_left _ (List.mem_append_right _ hn)
  obtain ⟨i, hi⟩ := (he.from_item hnn).exists_mem
  rw [he.cycle_eq hn] at hi
  have hpath := Item.Ready.mem_onPath_of_cycle hi
  have hstrip := hg.mem_strip_of_mem (Item.Ready.current_cycle hg ho hready hv) hi
  -- where a state of the cycle is expected, an edge leads to it at once
  have hdirect : (∃ j, item.Expects j ∧
      j ∈ g.strip (item.split g (lower ranking item.node)).cycle) →
      ∃ a ∈ d.graph.nodes, d'.graph.Reaches a.id n.id := by
    rintro ⟨j, hj, hjc⟩
    rw [← he.cycle_eq hn] at hjc
    obtain ⟨a, ha, hjoins⟩ := he.exists_joins hwf hsourced hnn hj hjc
    exact ⟨a, ha, .single hjoins⟩
  rcases Item.Ready.enters_cycle hg ho hready hv hpath hstrip with
    hexpected | ⟨v, hva, hin, hsys, hnext⟩
  · exact hdirect hexpected
  · obtain ⟨j, hjp, hj⟩ := Item.Ready.exists_expected hg ho hready hv hpath
    by_cases hjc : j ∈ g.strip (item.split g (lower ranking item.node)).cycle
    · exact hdirect ⟨j, hj, hjc⟩
    · have hja := Item.Ready.mem_approach_of_onPath hg ho hready hv hjp hjc
      obtain ⟨m, hm⟩ := he.exists_approach ⟨v, hva⟩
      have hmm : m ∈ na ++ nc ++ nd := List.mem_append_left _ (List.mem_append_left _ hm)
      have hfrom := he.from_item hmm
      rw [← he.approach_eq hm] at hva hja
      rw [← he.cycle_eq hn] at hnext
      obtain ⟨a, ha, hjoins⟩ := he.exists_joins hwf hsourced hmm hj
        (hg.mem_strip_of_mem (hfrom.current hg ho) hja)
      have hlater := he.joins_later hg hwf (List.append_assoc na nc nd) hm
        (List.mem_append_left _ hn) (hfrom.mem_transitions hva hin) hsys hnext
      exact ⟨a, ha, .tail (.single hjoins) hlater⟩

/-- With a single row the approach of a rank is reached from an earlier node. -/
theorem Extends.exists_reaches_approach (hone : g.numRows = 1) {n : Node sp} (hn : n ∈ na) :
    ∃ a ∈ d.graph.nodes, d'.graph.Reaches a.id n.id := by
  have hnn : n ∈ na ++ nc ++ nd := List.mem_append_left _ (List.mem_append_left _ hn)
  obtain ⟨i, hi⟩ := (he.from_item hnn).exists_mem
  rw [he.approach_eq hn] at hi
  obtain ⟨j, hj, hja⟩ := Item.Ready.enters_approach hg ho hready hv hone hi
  rw [← he.approach_eq hn] at hja
  obtain ⟨a, ha, hjoins⟩ := he.exists_joins hwf hsourced hnn hj
    (hg.mem_strip_of_mem ((he.from_item hnn).current hg ho) hja)
  exact ⟨a, ha, .single hjoins⟩

/-- With a single row the descent of a rank is reached from an earlier node: along an edge, or
through the parts of the paths. -/
theorem Extends.exists_reaches_descent (hone : g.numRows = 1) {n : Node sp} (hn : n ∈ nd) :
    ∃ a ∈ d.graph.nodes, d'.graph.Reaches a.id n.id := by
  have hnn : n ∈ na ++ nc ++ nd := List.mem_append_right _ hn
  obtain ⟨i, hi⟩ := (he.from_item hnn).exists_mem
  rw [he.descent_eq hn] at hi
  rcases Item.Ready.enters_descent hg ho hready hi with
    ⟨j, hj, hjd⟩ | ⟨v, hvp, hin, hsys, hnext⟩
  · rw [← he.descent_eq hn] at hjd
    obtain ⟨a, ha, hjoins⟩ := he.exists_joins hwf hsourced hnn hj
      (hg.mem_strip_of_mem ((he.from_item hnn).current hg ho) hjd)
    exact ⟨a, ha, .single hjoins⟩
  · -- the node of the paths that the step starts from comes before the descent
    obtain ⟨m, hm, hvm, a, ha, hreaches⟩ : ∃ m ∈ na ++ nc, v ∈ m.states ∧
        ∃ a ∈ d.graph.nodes, d'.graph.Reaches a.id m.id := by
      by_cases hvc : v ∈ g.strip (item.split g (lower ranking item.node)).cycle
      · have hvc := hg.mem_of_mem_strip hone (Item.Ready.current_cycle hg ho hready hv) hvc
        obtain ⟨m, hm⟩ := he.exists_cycle ⟨v, hvc⟩
        exact ⟨m, List.mem_append_right _ hm, he.cycle_eq hm ▸ hvc,
          he.exists_reaches_cycle hg ho hwf hready hv hsourced hm⟩
      · have hva := Item.Ready.mem_approach_of_onPath hg ho hready hv hvp hvc
        obtain ⟨m, hm⟩ := he.exists_approach ⟨v, hva⟩
        exact ⟨m, List.mem_append_left _ hm, he.approach_eq hm ▸ hva,
          he.exists_reaches_approach hg ho hwf hready hv hsourced hone hm⟩
    rw [← he.descent_eq hn] at hnext
    have hlater := he.joins_later hg hwf rfl hm hn
      ((he.from_item (List.mem_append_left _ hm)).mem_transitions hvm hin) hsys hnext
    exact ⟨a, ha, hreaches.tail hlater⟩

/-- **With a single row every new node is reached** from an earlier one. -/
theorem Extends.exists_reaches (hone : g.numRows = 1) {n : Node sp} (hn : n ∈ na ++ nc ++ nd) :
    ∃ a ∈ d.graph.nodes, d'.graph.Reaches a.id n.id := by
  rcases List.mem_append.mp hn with hnac | hnd
  · rcases List.mem_append.mp hnac with hna | hnc
    · exact he.exists_reaches_approach hg ho hwf hready hv hsourced hone hna
    · exact he.exists_reaches_cycle hg ho hwf hready hv hsourced hnc
  · exact he.exists_reaches_descent hg ho hwf hready hv hsourced hone hnd

/-- Adding a rank keeps what is known of the nodes that were there, and its cycle is entered. -/
theorem Extends.entered (hentered : d.graph.Entered g) : d'.graph.Entered g := by
  have hjoins : ∀ a b, d.graph.Joins a b → d'.graph.Joins a b := fun a b hab ↦
    (he.joins a b).mpr (Or.inl hab)
  refine ⟨fun n hn hkind ↦ ?_, fun hone n hn ↦ ?_⟩
  · rw [he.nodes_eq] at hn
    rcases List.mem_append.mp hn with hold | hnew
    · obtain ⟨a, ha⟩ := List.exists_mem_of_ne_nil _ (hentered.parents_cycle n hold hkind)
      exact List.ne_nil_of_mem (Graph.mem_parents.mpr (hjoins _ _ (Graph.mem_parents.mp ha)))
    · obtain ⟨a, ha, hreaches⟩ := he.exists_reaches_cycle hg ho hwf hready hv hsourced
        (he.mem_of_kind_cycle hnew hkind)
      exact hreaches.parents_ne_nil (Nat.ne_of_gt (he.id_lt ha hnew))
  · rw [he.nodes_eq] at hn
    rcases List.mem_append.mp hn with hold | hnew
    · exact (hentered.reaches hone n hold).mono hjoins
    · obtain ⟨a, ha, hreaches⟩ := he.exists_reaches hg ho hwf hready hv hsourced hone hnew
      exact ((hentered.reaches hone a ha).mono hjoins).trans hreaches

end Rank

/-! ## All ranks -/

variable {o : Options} (hg : g.Shaped) (ho : g.OfStates) (hr : g.ranking? = some ranking)

include hg ho hr

/-- **A rank that is taken up** finds its items sourced, and leaves them so. -/
theorem entered_of_process {bound : Nat} (hd : d.Sound g ranking bound) {item : Item sp}
    {rest : List (Item sp)} (hqueue : d.queue = item :: rest)
    (hok : ({ d with queue := rest } : Decomposition sp).process g o ranking item = .ok d')
    (hsourced : d.Sourced g) (hentered : d.graph.Entered g) :
    d'.Sourced g ∧ d'.graph.Entered g := by
  have hitem : item ∈ d.queue := hqueue ▸ List.mem_cons_self
  have hready := ready_of_mem_queue hg ho hr hd.toQueued hitem
  have hwf : ({ d with queue := rest } : Decomposition sp).graph.WellFormed := hd.wellFormed
  obtain ⟨d₁, emitted, na, nc, nd, he, d₂, paths, nodes, hsuccessors, rfl⟩ :=
    exists_extends_of_process hg ho hr hd hqueue hok
  have hfresh : Graph.initialId ∉ emitted := fun hmem ↦ by
    rw [he.emitted_eq] at hmem
    obtain ⟨n, hn, h0⟩ := List.mem_map.mp hmem
    exact he.id_ne_initialId hwf hn h0
  have hrest : d₁.Sourced g := fun i hi ↦ by
    rw [he.queue_eq] at hi
    refine (hsourced i (hqueue ▸ List.mem_cons_of_mem _ hi)).mono fun id t ht ↦ ?_
    exact Graph.arrivals?_append he.wellFormed he.nodes_eq ht
  obtain ⟨hsourced', hgraph⟩ := hrest.queueSuccessors hfresh hsuccessors
  refine ⟨hsourced', ?_⟩
  change d₂.graph.Entered g
  rw [hgraph]
  exact he.entered hg ho hwf hready (explored_of_process hok).1 (hsourced item hitem) hentered

/-- **How the nodes of a decomposition are entered.** -/
theorem entered_of_decompose (hd : g.decompose o ranking = .ok d) : d.graph.Entered g := by
  obtain ⟨hstart, hroot, -⟩ := sound_start hg ho hr
  have hentered : (start g ranking).graph.Entered g := {
    parents_cycle := fun n hn hkind ↦ by
      rw [(hstart.wellFormed.initial_iff n hn).mpr (hroot n hn)] at hkind
      cases hkind
    reaches := fun _ n hn ↦ by
      rw [hroot n hn]
      exact .refl }
  exact (run_induction hg ho hr (P := fun d ↦ d.Sourced g ∧ d.graph.Entered g)
    (fun hd hqueue hok _ h ↦ entered_of_process hg ho hr hd hqueue hok h.1 h.2) hstart
    ⟨sourced_start, hentered⟩ (remaining_le ranking g.numRanks) hd).2.2.2

end Decomposition

end JusticeViolation

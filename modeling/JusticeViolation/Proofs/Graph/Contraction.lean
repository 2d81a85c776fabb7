import JusticeViolation.Proofs.Graph.PathCount

/-!
# What merging puts together

Whatever a search for chains has done to its graph, it has contracted edges between attractors, one
at a time, and each was the only route between its ends when its turn came. So no circle is closed.
Now a route between two nodes that go to the same place would be a circle unless all of it goes
there. Merging is *convex*: what lies between merged nodes is merged with them, and nodes with a way
through something that is kept apart are kept apart.

It does not take a single route from the beginning. When the first attractor of a short cut has
taken in the one that the detour leads through, both ways to the last one are the same edge.
-/

namespace JusticeViolation.Graph

variable {sp : Space} {g : Game sp} {graph current : Graph sp} {folded : List (Nat × Nat)}

/-! ## Where nodes go -/

/-- Where a node goes when nodes are folded into others, one after the other. -/
def home (folded : List (Nat × Nat)) (id : Nat) : Nat :=
  folded.foldl (fun id (parent, child) ↦ foldInto parent child id) id

theorem home_cons (parent child : Nat) (folded : List (Nat × Nat)) (id : Nat) :
    home ((parent, child) :: folded) id = home folded (foldInto parent child id) := rfl

theorem home_append (folded : List (Nat × Nat)) (parent child : Nat) :
    home (folded ++ [(parent, child)]) = fun id ↦ foldInto parent child (home folded id) := by
  funext id
  rw [home, List.foldl_append]
  rfl

/-- The number of the node in which a node ends up when chains are merged. -/
def destination (graph : Graph sp) (id : Nat) : Nat :=
  graph.merging.graph.position (home graph.foldings id)

/-! ## Contracting edges -/

/-- How a graph becomes another: attractors are folded into attractors, each along an edge that is
counted as the only path. -/
inductive Contracts (graph : Graph sp) : List (Nat × Nat) → Graph sp → Prop
  | start : Contracts graph [] graph
  | fold {folded : List (Nat × Nat)} {current : Graph sp} {n m : Node sp} :
    Contracts graph folded current → n ∈ current.nodes → m ∈ current.nodes →
    n.kind.isAttractor = true → m.kind.isAttractor = true → current.Joins n.id m.id →
    current.pathCount n.id m.id ≤ 1 →
    Contracts graph (folded ++ [(n.id, m.id)]) (current.absorb n.id m.id)

namespace Contracts

variable (h : Contracts graph folded current)

include h

theorem rooted (hr : graph.Rooted) : current.Rooted := by
  induction h with
  | start => exact hr
  | fold _ hn hm hkind hkind' hjoins _ ih =>
    exact (quotient_absorb hn hm (ih.ends _ _ hjoins).2.2 ih hkind hkind').rooted ih
      (ascending_absorb ih.toSimple hm)

theorem sorted (hs : graph.Sorted) : current.Sorted := by
  induction h with
  | start => exact hs
  | fold _ _ _ _ _ _ _ ih => exact ih.absorb _ _

/-- What the steps leave is the quotient by where nodes go. -/
theorem quotient (hr : graph.Rooted) : Quotient (home folded) graph current := by
  induction h with
  | start => exact Quotient.refl hr.toSimple
  | fold h hn hm hkind hkind' hjoins _ ih =>
    have hr' := h.rooted hr
    have habsorb := quotient_absorb hn hm (hr'.ends _ _ hjoins).2.2 hr' hkind hkind'
    rw [home_append]
    exact ih.trans hr.toSimple habsorb

/-- **No circle is closed.** -/
theorem acyclic (hr : graph.Rooted) (hs : graph.Sorted) (hac : graph.Acyclic) :
    current.Acyclic := by
  induction h with
  | start => exact hac
  | fold h hn hm hkind hkind' hjoins hcount ih =>
    have hr' := h.rooted hr
    have habsorb := quotient_absorb hn hm (hr'.ends _ _ hjoins).2.2 hr' hkind hkind'
    exact Acyclic.foldInto habsorb.joins ih hjoins
      ((pathCount_le_one_iff (h.sorted hs) ih).mp hcount)

omit h in
/-- Before each step there was a graph with an edge to fold along. -/
theorem exists_before {earlier later : List (Nat × Nat)} {parent child : Nat}
    (h : Contracts graph folded current) (heq : folded = earlier ++ (parent, child) :: later) :
    ∃ before, Contracts graph earlier before ∧ before.Joins parent child ∧
      before.pathCount parent child ≤ 1 := by
  induction h generalizing later with
  | start => exact absurd heq.symm (List.append_ne_nil_of_right_ne_nil _ (List.cons_ne_nil _ _))
  | fold h _ _ _ _ hjoins hcount ih =>
    rcases List.eq_nil_or_concat later with rfl | ⟨later, last, rfl⟩
    · obtain ⟨rfl, hlast⟩ := List.append_singleton_inj.mp heq
      obtain ⟨rfl, rfl⟩ := Prod.mk.inj hlast
      exact ⟨_, h, hjoins, hcount⟩
    · rw [List.concat_eq_append, ← List.cons_append, ← List.append_assoc] at heq
      exact ih (List.append_singleton_inj.mp heq).1

end Contracts

/-! ## The search contracts edges -/

namespace Merging

variable {s : Merging sp} {id child : Nat}

/-- **Looking at one child** contracts the edge to it or none, and the other children stay. -/
theorem contracts_visitChild (hr : graph.Rooted) (h : Contracts graph s.folded s.graph)
    (hid : s.Looks id) (hjoins : s.graph.Joins id child) :
    Contracts graph (s.visitChild id child).folded (s.visitChild id child).graph ∧
      ∀ c, c ≠ child → s.graph.Joins id c → (s.visitChild id child).graph.Joins id c := by
  have hr' := h.rooted hr
  unfold Merging.visitChild
  split
  · rename_i hfold
    rw [foldable, Bool.and_eq_true, Option.any_eq_true, decide_eq_true_iff] at hfold
    obtain ⟨⟨m, hnode, hkind'⟩, hcount⟩ := hfold
    obtain ⟨hm, rfl⟩ := mem_of_node?_eq_some hnode
    obtain ⟨n, hn, rfl, hkind⟩ := hid
    have hne := (hr'.ends _ _ hjoins).2.2
    refine ⟨h.fold hn hm hkind hkind' hjoins hcount, fun c hc hjoins' ↦ ?_⟩
    refine ((quotient_absorb hn hm hne hr' hkind hkind').joins _ _).mpr ?_
    exact ⟨(hr'.ends _ _ hjoins').2.2, n.id, c, hjoins', if_neg hne, if_neg hc⟩
  · exact ⟨h, fun _ _ hjoins' ↦ hjoins'⟩

theorem contracts_visitChildren (hr : graph.Rooted) {children : List Nat} (hstage : Stage graph s)
    (h : Contracts graph s.folded s.graph) (hid : s.Looks id) (hnodup : children.Nodup)
    (hjoins : ∀ c ∈ children, s.graph.Joins id c) :
    let s' := children.foldl (fun s child ↦ s.visitChild id child) s
    Contracts graph s'.folded s'.graph := by
  induction children generalizing s with
  | nil => exact h
  | cons child children ih =>
    obtain ⟨hnew, hnodup⟩ := List.nodup_cons.mp hnodup
    obtain ⟨hchild, hchildren⟩ := List.forall_mem_cons.mp hjoins
    obtain ⟨hmem, hne⟩ := hstage.of_mem_children (mem_children.mpr hchild)
    obtain ⟨hstage', hid'⟩ := hstage.visitChild hr hid hmem hne
    obtain ⟨h', hkept⟩ := contracts_visitChild hr h hid hchild
    exact ih hstage' h' hid' hnodup fun c hc ↦
      hkept c (fun heq ↦ hnew (heq ▸ hc)) (hchildren c hc)

theorem contracts_visit (hr : graph.Rooted) (hs : graph.Sorted) (hstage : Stage graph s)
    (h : Contracts graph s.folded s.graph) (id : Nat) :
    Contracts graph (s.visit id).folded (s.visit id).graph := by
  unfold Merging.visit
  split
  · exact h
  · rename_i n hnode
    obtain ⟨hn, hid⟩ := mem_of_node?_eq_some hnode
    dsimp only
    split
    · rename_i hkind
      exact contracts_visitChildren hr hstage h ⟨n, hn, hid, hkind⟩
        ((pairwise_children (h.sorted hs) id).imp fun hlt ↦ Nat.ne_of_lt hlt)
        fun _ hchild ↦ mem_children.mp hchild
    · exact h

end Merging

/-- **A search for chains contracts edges.** -/
theorem contracts_merging (hr : graph.Rooted) (hs : graph.Sorted) :
    Contracts graph graph.foldings graph.merging.graph := by
  obtain ⟨seen, hloops⟩ := exists_loops_merging hr hs
  obtain ⟨⟨-, h⟩, -⟩ := hloops.invariant
    (P := fun t ↦ Merging.Stage graph t.2 ∧ Contracts graph t.2.folded t.2.graph)
    ⟨Merging.stage_start hr, .start⟩ (by
      rintro ⟨seen, s⟩ t ⟨hstage, h⟩ ht
      obtain ⟨⟨id, queue⟩, hnext, rfl⟩ := Option.map_eq_some_iff.mp ht
      obtain ⟨hstage', -⟩ := hstage.dequeue hnext
      exact ⟨hstage'.visit hr id, Merging.contracts_visit hr hs hstage' h id⟩)
  exact h

/-! ## The merged graph -/

/-- The merged graph is the quotient by where nodes end up. -/
theorem quotient_destination (hr : graph.Rooted) (hs : graph.Sorted) (refresh : Bool) :
    Quotient graph.destination graph (graph.mergeAttractors g refresh) := by
  have h := contracts_merging hr hs
  have hr' := h.rooted hr
  obtain ⟨merged, hmerged, hnodes, hjoins⟩ := exists_merged (g := g) graph refresh
  have hsame := quotient_of_nodes_eq hr'.toSimple hnodes hjoins
  have hrenumber := quotient_renumber (hsame.rooted hr' (hnodes ▸ hr'.ascending))
  rw [position_congr hnodes] at hrenumber
  have hquotient := ((h.quotient hr).trans hr.toSimple hsame).trans hr.toSimple hrenumber
  rw [hmerged]
  exact hquotient

/-- Nodes that end up in one place have been folded together. -/
theorem destination_inj (hr : graph.Rooted) (hs : graph.Sorted) {n m : Node sp}
    (hn : n ∈ graph.nodes) (hm : m ∈ graph.nodes)
    (h : graph.destination n.id = graph.destination m.id) :
    home graph.foldings n.id = home graph.foldings m.id := by
  have hcontracts := contracts_merging hr hs
  have hquotient := hcontracts.quotient hr
  obtain ⟨n', hn', hid⟩ := hquotient.exists_node n hn
  obtain ⟨m', hm', hid'⟩ := hquotient.exists_node m hm
  rw [destination, destination, ← hid, ← hid'] at h
  rw [← hid, ← hid']
  exact position_inj (hcontracts.rooted hr).toSimple hn' hm' h

/-- **Merging closes no circle.** -/
theorem acyclic_mergeAttractors (hr : graph.Rooted) (hs : graph.Sorted) (hac : graph.Acyclic)
    (refresh : Bool) : (graph.mergeAttractors g refresh).Acyclic := by
  have h := contracts_merging hr hs
  have hr' := h.rooted hr
  obtain ⟨merged, hmerged, hnodes, hjoins⟩ := exists_merged (g := g) graph refresh
  have hposition := position_congr hnodes
  refine (h.acyclic hr hs hac).rename hr'.toSimple
    (fun _ hn _ hm ↦ position_inj hr'.toSimple hn hm) fun a b hab ↦ ?_
  rw [hmerged] at hab
  obtain ⟨a', b', hab', ha, hb⟩ := joins_renumber.mp hab
  exact ⟨a', b', (hjoins a' b').mp hab', hposition ▸ ha, hposition ▸ hb⟩

/-- **Merging is convex.** In an acyclic graph with the initial node each child is folded in along
the only route that leads to it at that time, and no circle is closed. A route from one node to
another with the same destination stays within what is merged, so two nodes with a way through
something that is kept apart are kept apart. -/
theorem mergeAttractors_convex (hr : graph.Rooted) (hs : graph.Sorted) (hac : graph.Acyclic)
    (refresh : Bool) :
    Quotient graph.destination graph (graph.mergeAttractors g refresh) ∧
    (graph.mergeAttractors g refresh).Acyclic ∧
    (∀ earlier parent child later, graph.foldings = earlier ++ (parent, child) :: later →
      ∃ before, Contracts graph earlier before ∧ before.Joins parent child ∧
        before.AtMostOne parent child) ∧
    ∀ a b l, graph.Route a b l → graph.destination a = graph.destination b →
      ∀ k ∈ l, graph.destination k = graph.destination a := by
  have hquotient := quotient_destination (g := g) hr hs refresh
  have hacyclic := acyclic_mergeAttractors (g := g) hr hs hac refresh
  refine ⟨hquotient, hacyclic, fun earlier parent child later heq ↦ ?_,
    fun a b l hl hab k hk ↦ ?_⟩
  · obtain ⟨before, hbefore, hjoins, hcount⟩ := (contracts_merging hr hs).exists_before heq
    exact ⟨before, hbefore, hjoins,
      (pathCount_le_one_iff (hbefore.sorted hs) (hbefore.acyclic hr hs hac)).mp hcount⟩
  · -- the images of the two halves of the route lead there and back
    obtain ⟨hak, hkb⟩ := hl.reaches_of_mem hk
    have hka := hquotient.reaches hkb
    rw [← hab] at hka
    exact hacyclic.eq_of_reaches hka (hquotient.reaches hak)

/-- Three attractors in a row, with a short cut from the first to the last. -/
def shortcut : Graph bits where
  nodes := [⟨0, none, .univ, ∅, [], .initial⟩,
    ⟨1, some 3, .literal ⟨0⟩ 0, .literal ⟨1⟩ 1, [], .attractorNotFromCycle⟩,
    ⟨2, some 2, .literal ⟨0⟩ 1, .literal ⟨1⟩ 0, [], .attractorNotFromCycle⟩,
    ⟨3, some 1, .literal ⟨2⟩ 1, .literal ⟨1⟩ 0, [], .attractorNotFromCycle⟩]
  edges := [⟨0, 1, []⟩, ⟨1, 2, []⟩, ⟨1, 3, []⟩, ⟨2, 3, []⟩]

theorem rooted_shortcut : shortcut.Rooted where
  ascending := by decide
  ends := by
    have hends : ∀ e ∈ shortcut.edges, (∃ n ∈ shortcut.nodes, n.id = e.source) ∧
        (∃ n ∈ shortcut.nodes, n.id = e.target) ∧ e.source ≠ e.target := by decide
    rintro a b ⟨e, he, rfl, rfl⟩
    exact hends e he
  root := ⟨_, List.mem_cons_self, rfl, rfl⟩

theorem sorted_shortcut : shortcut.Sorted := by
  unfold Sorted
  decide

theorem acyclic_shortcut : shortcut.Acyclic := by
  have hlt : ∀ e ∈ shortcut.edges, e.source < e.target := by decide
  refine acyclic_of_lt ?_
  rintro a b ⟨e, he, rfl, rfl⟩
  exact hlt e he

/-- The second attractor lies between the first and the last, and all three are merged. -/
theorem mergeAttractors_shortcut : shortcut.foldings = [(1, 2), (1, 3)] ∧
    (shortcut.mergeAttractors Game.turns false).Acyclic ∧
    shortcut.destination 2 = shortcut.destination 1 := by
  have hsame : shortcut.destination 1 = shortcut.destination 3 := by decide +kernel
  have hroute : shortcut.Route 1 3 [2, 1] :=
    (Route.single ⟨⟨1, 2, []⟩, by decide, rfl, rfl⟩).step ⟨⟨2, 3, []⟩, by decide, rfl, rfl⟩
  obtain ⟨-, hacyclic, -, hconvex⟩ := mergeAttractors_convex (g := Game.turns) rooted_shortcut
    sorted_shortcut acyclic_shortcut false
  exact ⟨by decide +kernel, hacyclic, hconvex 1 3 [2, 1] hroute hsame 2 List.mem_cons_self⟩

/-- **Two routes between attractors do not keep them apart**: an attractor takes in another one and
then what both of them lead to. -/
theorem not_forall_destination_ne : ¬∀ graph : Graph bits, graph.Rooted → graph.Sorted →
    graph.Acyclic → ∀ n ∈ graph.nodes, ∀ m ∈ graph.nodes, n.kind.isAttractor = true →
      m.kind.isAttractor = true → n.id ≠ m.id →
      (∃ l l', l ≠ l' ∧ graph.Route n.id m.id l ∧ graph.Route n.id m.id l') →
      graph.destination n.id ≠ graph.destination m.id := by
  intro hall
  have hlong : shortcut.Route 1 3 [2, 1] :=
    (Route.single ⟨⟨1, 2, []⟩, by decide, rfl, rfl⟩).step ⟨⟨2, 3, []⟩, by decide, rfl, rfl⟩
  have hshort : shortcut.Route 1 3 [1] := .single ⟨⟨1, 3, []⟩, by decide, rfl, rfl⟩
  have hsame : shortcut.destination 1 = shortcut.destination 3 := by decide +kernel
  refine hall shortcut rooted_shortcut sorted_shortcut acyclic_shortcut shortcut.nodes[1]
    (List.getElem_mem _) shortcut.nodes[3] (List.getElem_mem _) rfl rfl (by decide)
    ⟨[2, 1], [1], by decide, hlong, hshort⟩ hsame

end JusticeViolation.Graph

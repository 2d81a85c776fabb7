import JusticeViolation.Construction
import JusticeViolation.Proofs.Graph.Merging

/-!
# Folding a graph

Finding facts, merging chains and numbering nodes through all leave the same picture: every node of
the old graph goes to a node of the new one, which holds exactly the states and transitions of the
nodes that went there and is of the rank and kind of one of them. So does every edge, unless its
ends went to the same node. The initial node stays apart, and cycles stay apart and as they are. A
graph *folds* to another if this is so, and folds compose. What is reached stays reached, and a
cycle with a parent keeps one.
-/

namespace JusticeViolation.Graph

variable {sp : Space} {g : Game sp} {graph graph' graph'' : Graph sp}

/-- The nodes of `graph` go to nodes of `graph'` by their numbers. -/
structure Folds (f : Nat → Nat) (graph graph' : Graph sp) : Prop where
  exists_node : ∀ n ∈ graph.nodes, ∃ n' ∈ graph'.nodes, n'.id = f n.id
  exists_member : ∀ n' ∈ graph'.nodes, ∃ n ∈ graph.nodes,
    f n.id = n'.id ∧ n.rank = n'.rank ∧ n.kind = n'.kind
  mem_states : ∀ n' ∈ graph'.nodes, ∀ i,
    i ∈ n'.states ↔ ∃ n ∈ graph.nodes, f n.id = n'.id ∧ i ∈ n.states
  mem_transitions : ∀ n' ∈ graph'.nodes, ∀ v,
    v ∈ n'.transitions ↔ ∃ n ∈ graph.nodes, f n.id = n'.id ∧ v ∈ n.transitions
  root : ∀ n ∈ graph.nodes, f n.id = initialId ↔ n.id = initialId
  joins : ∀ a b, graph.Joins a b → f a ≠ f b → graph'.Joins (f a) (f b)
  cycle : ∀ n' ∈ graph'.nodes, n'.kind = .cycle → ∃ n ∈ graph.nodes, n.kind = .cycle ∧
    n.rank = n'.rank ∧ n.states = n'.states ∧ n.transitions = n'.transitions ∧
    ∀ m ∈ graph.nodes, f m.id = n'.id ↔ m.id = n.id

namespace Folds

private theorem exists_part_iff {f f' : Nat → Nat} (h : Folds f graph graph')
    (part : Node sp → StateSet sp) (hpart : ∀ n' ∈ graph'.nodes, ∀ i,
      i ∈ part n' ↔ ∃ n ∈ graph.nodes, f n.id = n'.id ∧ i ∈ part n) (id i : Nat) :
    (∃ n' ∈ graph'.nodes, f' n'.id = id ∧ i ∈ part n') ↔
      ∃ n ∈ graph.nodes, f' (f n.id) = id ∧ i ∈ part n := by
  constructor
  · rintro ⟨n', hn', hid', hi⟩
    obtain ⟨n, hn, hid, hi⟩ := (hpart n' hn' i).mp hi
    exact ⟨n, hn, by rw [hid, hid'], hi⟩
  · rintro ⟨n, hn, hid, hi⟩
    obtain ⟨n', hn', hid'⟩ := h.exists_node n hn
    exact ⟨n', hn', by rw [hid', hid], (hpart n' hn' i).mpr ⟨n, hn, hid'.symm, hi⟩⟩

theorem trans {f f' : Nat → Nat} (h : Folds f graph graph') (h' : Folds f' graph' graph'') :
    Folds (fun id ↦ f' (f id)) graph graph'' where
  exists_node := by
    intro n hn
    obtain ⟨n', hn', hid⟩ := h.exists_node n hn
    obtain ⟨n'', hn'', hid'⟩ := h'.exists_node n' hn'
    exact ⟨n'', hn'', by rw [hid', hid]⟩
  exists_member := by
    intro n'' hn''
    obtain ⟨n', hn', hid', hrank', hkind'⟩ := h'.exists_member n'' hn''
    obtain ⟨n, hn, hid, hrank, hkind⟩ := h.exists_member n' hn'
    exact ⟨n, hn, by rw [hid, hid'], hrank.trans hrank', hkind.trans hkind'⟩
  mem_states := fun n'' hn'' i ↦
    (h'.mem_states n'' hn'' i).trans (h.exists_part_iff (·.states) h.mem_states n''.id i)
  mem_transitions := fun n'' hn'' v ↦
    (h'.mem_transitions n'' hn'' v).trans
      (h.exists_part_iff (·.transitions) h.mem_transitions n''.id v)
  root := by
    intro n hn
    obtain ⟨n', hn', hid'⟩ := h.exists_node n hn
    rw [← h.root n hn, ← hid']
    exact h'.root n' hn'
  joins := fun a b hab hne ↦
    h'.joins (f a) (f b) (h.joins a b hab fun heq ↦ hne (congrArg f' heq)) hne
  cycle := by
    intro n'' hn'' hkind
    obtain ⟨n', hn', hkind', hrank', hstates', htrans', hapart'⟩ := h'.cycle n'' hn'' hkind
    obtain ⟨n, hn, hkind, hrank, hstates, htrans, hapart⟩ := h.cycle n' hn' hkind'
    refine ⟨n, hn, hkind, hrank.trans hrank', hstates.trans hstates', htrans.trans htrans',
      fun m hm ↦ ?_⟩
    obtain ⟨m', hm', hid⟩ := h.exists_node m hm
    rw [← hid, hapart' m' hm', hid, hapart m hm]

variable {f : Nat → Nat} {n : Node sp} (h : Folds f graph graph')

include h

/-- What goes to a node other than the initial one is not the initial one. -/
theorem id_ne_initialId (hn : n ∈ graph.nodes) {id : Nat} (hid : f n.id = id)
    (h0 : id ≠ initialId) : n.id ≠ initialId := fun hn0 ↦
  h0 (hid ▸ (h.root n hn).mpr hn0)

/-- The initial node keeps a child if it has one. -/
theorem children_ne_nil (hwf : graph.WellFormed) (hn : n ∈ graph.nodes)
    (hjoins : graph.Joins initialId n.id) : graph'.children initialId ≠ [] := by
  obtain ⟨root, hroot, hid⟩ := hwf.root
  have hne : n.id ≠ initialId := (hwf.ends _ _ hjoins).2.2.symm
  have hfroot : f initialId = initialId := hid ▸ (h.root root hroot).mpr hid
  have hfn : f initialId ≠ f n.id := fun heq ↦
    hne ((h.root n hn).mp (heq.symm.trans hfroot))
  have hchild := mem_children.mpr (h.joins initialId n.id hjoins hfn)
  rw [hfroot] at hchild
  exact List.ne_nil_of_mem hchild

/-- What is reached stays reached. -/
theorem reaches {a b : Nat} (hab : graph.Reaches a b) : graph'.Reaches (f a) (f b) :=
  hab.map h.joins

/-- If every node is reached from the initial one, then so is every node of the new graph. -/
theorem reaches_initialId (hwf : graph.WellFormed)
    (hall : ∀ n ∈ graph.nodes, graph.Reaches initialId n.id) {n' : Node sp}
    (hn' : n' ∈ graph'.nodes) : graph'.Reaches initialId n'.id := by
  obtain ⟨n, hn, hid, -⟩ := h.exists_member n' hn'
  obtain ⟨root, hroot, hid0⟩ := hwf.root
  have hroot' : f initialId = initialId := hid0 ▸ (h.root root hroot).mpr hid0
  have hreaches := h.reaches (hall n hn)
  rwa [hroot', hid] at hreaches

/-- If every cycle has a parent, then so has every cycle of the new graph. -/
theorem parents_cycle (hwf : graph.WellFormed)
    (hall : ∀ n ∈ graph.nodes, n.kind = .cycle → graph.parents n.id ≠ []) {n' : Node sp}
    (hn' : n' ∈ graph'.nodes) (hkind : n'.kind = .cycle) : graph'.parents n'.id ≠ [] := by
  obtain ⟨n, hn, hkind, -, -, -, hapart⟩ := h.cycle n' hn' hkind
  obtain ⟨a, ha⟩ := List.exists_mem_of_ne_nil _ (hall n hn hkind)
  have hjoins := mem_parents.mp ha
  obtain ⟨⟨m, hm, rfl⟩, -, hne⟩ := hwf.ends _ _ hjoins
  have hid : f n.id = n'.id := (hapart n hn).mpr rfl
  -- no other node goes where a cycle goes, so the parent stays apart from it
  have hne' : f m.id ≠ f n.id := fun heq ↦ hne ((hapart m hm).mp (heq.trans hid))
  exact List.ne_nil_of_mem (mem_parents.mpr (hid ▸ h.joins m.id n.id hjoins hne'))

end Folds

/-! ## Quotients and new facts -/

/-- **A quotient is a fold**: a cycle is no attractor, and so it is alone in its class. -/
theorem Quotient.folds {f : Nat → Nat} (h : Quotient f graph graph') (hwf : graph.WellFormed) :
    Folds f graph graph' where
  exists_node := h.exists_node
  exists_member := by
    intro n' hn'
    obtain ⟨n, hn, hid, hrank, hbody, -⟩ := h.exists_member n' hn'
    exact ⟨n, hn, hid, hrank.symm, congrArg NodeBody.kind hbody.symm⟩
  mem_states := h.mem_states
  mem_transitions := h.mem_transitions
  root := fun n hn ↦ h.eq_initialId_iff hwf.rooted hn
  joins := fun a b hab hne ↦ (h.joins _ _).mpr ⟨hne, a, b, hab, rfl, rfl⟩
  cycle := by
    intro n' hn' hkind
    obtain ⟨n, hn, hid, hrank, hbody, -⟩ := h.exists_member n' hn'
    have hcycle : n.kind = .cycle := by rwa [Node.kind, hbody] at hkind
    have halone : ∀ m ∈ graph.nodes, f m.id = n'.id ↔ m.id = n.id := fun m hm ↦
      ⟨fun hmn ↦ (h.id_eq_of_not_isAttractor hn hm (by rw [hcycle]; rfl)
        (hid.trans hmn.symm)).symm, fun hmn ↦ hmn ▸ hid⟩
    refine ⟨n, hn, hcycle, hrank.symm, StateSet.ext_mem fun i ↦ ?_, StateSet.ext_mem fun v ↦ ?_,
      halone⟩
    · rw [h.mem_states n' hn']
      refine ⟨fun hi ↦ ⟨n, hn, hid, hi⟩, ?_⟩
      rintro ⟨m, hm, hmn, hi⟩
      rwa [hwf.eq_of_id_eq hm hn ((halone m hm).mp hmn)] at hi
    · rw [h.mem_transitions n' hn']
      refine ⟨fun hv ↦ ⟨n, hn, hid, hv⟩, ?_⟩
      rintro ⟨m, hm, hmn, hv⟩
      rwa [hwf.eq_of_id_eq hm hn ((halone m hm).mp hmn)] at hv

theorem Folds.refl (h : graph.WellFormed) : Folds id graph graph :=
  (Quotient.refl h.rooted.toSimple).folds h

theorem joins_annotate {a b : Nat} : (graph.annotate g).Joins a b ↔ graph.Joins a b := by
  unfold annotate
  exact joins_annotateEdges

/-- Facts do not decide whether a graph is well-formed. -/
theorem WellFormed.annotate (h : graph.WellFormed) : (graph.annotate g).WellFormed where
  ascending := List.pairwise_map.mpr h.ascending
  root := by
    obtain ⟨n, hn, h0⟩ := h.root
    exact ⟨_, List.mem_map_of_mem hn, h0⟩
  initial_iff := fun n' hn' ↦ by
    obtain ⟨n, hn, rfl⟩ := List.mem_map.mp hn'
    exact h.initial_iff n hn
  ends := fun a b hab ↦ by
    obtain ⟨⟨n, hn, ha⟩, ⟨m, hm, hb⟩, hne⟩ := h.ends a b (joins_annotate.mp hab)
    exact ⟨⟨_, List.mem_map_of_mem hn, ha⟩, ⟨_, List.mem_map_of_mem hm, hb⟩, hne⟩

/-- Finding facts folds nothing. -/
theorem folds_annotate (h : graph.WellFormed) : Folds id graph (graph.annotate g) where
  exists_node := fun n hn ↦ ⟨_, List.mem_map_of_mem hn, rfl⟩
  exists_member := fun n' hn' ↦ by
    obtain ⟨n, hn, rfl⟩ := List.mem_map.mp hn'
    exact ⟨n, hn, rfl, rfl, rfl⟩
  mem_states := fun n' hn' i ↦ by
    obtain ⟨n, hn, rfl⟩ := List.mem_map.mp hn'
    refine ⟨fun hi ↦ ⟨n, hn, rfl, hi⟩, fun ⟨m, hm, hmn, hi⟩ ↦ ?_⟩
    rwa [h.eq_of_id_eq hm hn hmn] at hi
  mem_transitions := fun n' hn' v ↦ by
    obtain ⟨n, hn, rfl⟩ := List.mem_map.mp hn'
    refine ⟨fun hv ↦ ⟨n, hn, rfl, hv⟩, fun ⟨m, hm, hmn, hv⟩ ↦ ?_⟩
    rwa [h.eq_of_id_eq hm hn hmn] at hv
  root := fun _ _ ↦ Iff.rfl
  joins := fun _ _ hab _ ↦ joins_annotate.mpr hab
  cycle := fun n' hn' hkind ↦ by
    obtain ⟨n, hn, rfl⟩ := List.mem_map.mp hn'
    exact ⟨n, hn, hkind, rfl, rfl, rfl, fun _ _ ↦ Iff.rfl⟩

/-! ## The finished graph -/

/-- A graph that others fold to, and which is well-formed itself. -/
def FoldsTo (graph graph' : Graph sp) : Prop :=
  graph'.WellFormed ∧ ∃ f, Folds f graph graph'

namespace FoldsTo

theorem refl (h : graph.WellFormed) : graph.FoldsTo graph := ⟨h, id, Folds.refl h⟩

theorem trans (h : graph.FoldsTo graph') (h' : graph'.FoldsTo graph'') : graph.FoldsTo graph'' := by
  obtain ⟨-, f, hf⟩ := h
  obtain ⟨hwf, f', hf'⟩ := h'
  exact ⟨hwf, _, hf.trans hf'⟩

end FoldsTo

theorem foldsTo_annotate (h : graph.WellFormed) : graph.FoldsTo (graph.annotate g) :=
  ⟨h.annotate, id, folds_annotate h⟩

theorem foldsTo_mergeAttractors (h : graph.WellFormed) (refresh : Bool) :
    graph.FoldsTo (graph.mergeAttractors g refresh) := by
  obtain ⟨⟨f, hf⟩, -, hids⟩ := exists_quotient_mergeAttractors (g := g) h.rooted refresh
  exact ⟨hf.wellFormed h (ascending_of_ids hids), f, hf.folds h⟩

/-- **What is done to a graph in the end is a fold.** -/
theorem foldsTo_finish (h : graph.WellFormed) (o : Options) :
    graph.FoldsTo (g.finish o graph).1 := by
  have hannotated : graph.FoldsTo (if o.invariants then graph.annotate g else graph) := by
    split
    · exact foldsTo_annotate h
    · exact .refl h
  unfold Game.finish
  dsimp only
  split
  · exact hannotated.trans (foldsTo_mergeAttractors hannotated.1 _)
  · exact hannotated

theorem folds_finish (h : graph.WellFormed) (o : Options) :
    ∃ f, Folds f graph (g.finish o graph).1 := (foldsTo_finish h o).2

/-- Every edge of the finished graph is what an edge became. -/
theorem exists_folds_finish (h : graph.WellFormed) (o : Options) :
    ∃ f, Folds f graph (g.finish o graph).1 ∧ ∀ a b, (g.finish o graph).1.Joins a b →
      a ≠ b ∧ ∃ a' b', graph.Joins a' b' ∧ f a' = a ∧ f b' = b := by
  obtain ⟨annotated, hannotated, hwf, hf, hjoins⟩ : ∃ annotated : Graph sp,
      annotated = (if o.invariants then graph.annotate g else graph) ∧ annotated.WellFormed ∧
        Folds id graph annotated ∧ ∀ a b, annotated.Joins a b ↔ graph.Joins a b := by
    split
    · exact ⟨_, rfl, h.annotate, folds_annotate h, fun _ _ ↦ joins_annotate⟩
    · exact ⟨_, rfl, h, Folds.refl h, fun _ _ ↦ Iff.rfl⟩
  unfold Game.finish
  dsimp only
  rw [← hannotated]
  split
  · obtain ⟨⟨f, hq⟩, -⟩ := exists_quotient_mergeAttractors (g := g) hwf.rooted o.invariants
    refine ⟨_, hf.trans (hq.folds hwf), fun a b hab ↦ ?_⟩
    obtain ⟨hne, a', b', hab', ha, hb⟩ := (hq.joins a b).mp hab
    exact ⟨hne, a', b', (hjoins a' b').mp hab', ha, hb⟩
  · refine ⟨id, hf, fun a b hab ↦ ?_⟩
    exact ⟨(hwf.ends a b hab).2.2, a, b, (hjoins a b).mp hab, rfl, rfl⟩

end JusticeViolation.Graph

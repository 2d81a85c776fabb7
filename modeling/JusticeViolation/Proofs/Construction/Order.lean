import JusticeViolation.Proofs.Construction.Descent
import JusticeViolation.Proofs.Decomposition.Order

/-!
# Constructions go down

A construction reports the ranks that it takes up in falling order, none of them twice, and adds no
part of a rank twice, whether it ends with a graph or breaks off; and it never breaks off because a
rank is entered again. In the graph that it ends with, two nodes are never the same part of one
rank. Unless chains are merged, every edge that does not start at the initial node goes to a lower
rank or, within a rank, from an earlier part to a later one.
-/

namespace JusticeViolation

variable {sp : Space} {g : Game sp} {graph : Graph sp} {o : Options}

/-! ## Reports -/

/-- The event reports neither a rank that is taken up nor a node. -/
def Event.Quiet (e : Event) : Prop := e.started? = none ∧ e.emitted? = none

namespace Game

theorem quiet_finish (o : Options) (graph : Graph sp) : ∀ e ∈ (g.finish o graph).2, e.Quiet := by
  unfold finish
  dsimp only
  split
  · intro e he
    rcases List.mem_append.mp he with he | he
    · obtain ⟨_, -, rfl⟩ := List.mem_map.mp he
      exact ⟨rfl, rfl⟩
    · rw [List.mem_singleton.mp he]
      exact ⟨rfl, rfl⟩
  · exact fun _ he ↦ absurd he List.not_mem_nil

section Shaped

variable (hs : g.Shaped) (ho : g.OfStates)

include hs ho

/-- A bare graph is reported by a decomposition, if there is one. -/
theorem exists_log_bareGraph (o : Options) : ∃ front log,
    (g.bareGraph o).events = front ++ log.reverse ∧ (∀ e ∈ front, e.Quiet) ∧ Orderly log := by
  have hnil : Orderly [] := ⟨.nil, .nil⟩
  unfold bareGraph
  cases g.deadlockGraph? with
  | some graph =>
    refine ⟨[.deadlockForced], [], rfl, fun e he ↦ ?_, hnil⟩
    rw [List.mem_singleton.mp he]
    exact ⟨rfl, rfl⟩
  | none =>
    cases hr : g.ranking? with
    | none => exact ⟨[], [], rfl, fun _ he ↦ absurd he List.not_mem_nil, hnil⟩
    | some ranking =>
      have horderly := (Decomposition.orderly_of_decompose hs ho hr o).1
      refine ⟨[ranking.builtEvent, .rankingReady g.numRanks ranking.nodes.length],
        Decomposition.finalLog (g.decompose o ranking), ?_, fun e he ↦ ?_, horderly⟩
      · dsimp only
        cases g.decompose o ranking <;> rfl
      · rcases List.mem_pair.mp he with rfl | rfl <;> exact ⟨rfl, rfl⟩

/-- The construction does not break off for re-entering a rank. -/
theorem not_reenters_of_bareGraph {v : Violation}
    (h : (g.bareGraph o).result = .error (.violation v)) : ¬v.Reenters := by
  cases hdead : g.deadlockGraph? with
  | some graph =>
    rw [bareGraph_of_deadlock hdead] at h
    cases h
  | none =>
    cases hr : g.ranking? with
    | none =>
      rw [bareGraph_of_unrealizable hdead hr] at h
      cases h
    | some ranking =>
      have hcause := (Decomposition.orderly_of_decompose hs ho hr o).2
      rw [bareGraph_of_ranking hdead hr] at h
      cases hd : g.decompose o ranking with
      | error e =>
        rw [hd] at h
        obtain rfl : e.cause = v := BuildFault.violation.inj (Except.error.inj h)
        exact hcause e hd
      | ok d =>
        rw [hd] at h
        cases h

end Shaped

/-- **The reports of a construction** are those of a decomposition, others aside. -/
theorem exists_log_construct (ho : g.OfStates) (o : Options) : ∃ front log behind,
    (g.construct o).events = front ++ log.reverse ++ behind ∧
      (∀ e ∈ front, e.Quiet) ∧ (∀ e ∈ behind, e.Quiet) ∧ Orderly log := by
  have hnone : ∀ e ∈ ([] : List Event), e.Quiet := fun _ he ↦ absurd he List.not_mem_nil
  cases hshape : g.shapeFault? with
  | some fault =>
    refine ⟨[], [], [], ?_, hnone, hnone, .nil, .nil⟩
    rw [construct, hshape]
    rfl
  | none =>
    obtain ⟨front, log, hevents, hquiet, horderly⟩ :=
      exists_log_bareGraph (shaped_of_shapeFault?_eq_none hshape) ho o
    cases hresult : (g.bareGraph o).result with
    | error e =>
      refine ⟨front, log, [], ?_, hquiet, hnone, horderly⟩
      rw [construct, hshape]
      dsimp only
      rw [hresult, hevents, List.append_nil]
    | ok bare =>
      refine ⟨front, log, (g.finish o bare).2 ++
        [.graphBuilt (g.finish o bare).1.nodes.length (g.finish o bare).1.edges.length], ?_, hquiet,
        fun e he ↦ ?_, horderly⟩
      · rw [construct, hshape]
        dsimp only
        rw [hresult, hevents]
        exact List.append_assoc _ _ _
      · rcases List.mem_append.mp he with he | he
        · exact quiet_finish o bare e he
        · rw [List.mem_singleton.mp he]
          exact ⟨rfl, rfl⟩

/-- A projection of the reports that is silent on the others. -/
theorem filterMap_construct {α : Type} {f : Event → Option α}
    (hf : ∀ e : Event, e.Quiet → f e = none) {front log behind : List Event}
    (hevents : (g.construct o).events = front ++ log.reverse ++ behind)
    (hfront : ∀ e ∈ front, e.Quiet) (hbehind : ∀ e ∈ behind, e.Quiet) :
    (g.construct o).events.filterMap f = (log.filterMap f).reverse := by
  have hnil : ∀ events : List Event, (∀ e ∈ events, e.Quiet) → events.filterMap f = [] :=
    fun events hquiet ↦ List.filterMap_eq_nil_iff.mpr fun e he ↦ hf e (hquiet e he)
  rw [hevents, List.filterMap_append, List.filterMap_append, hnil front hfront,
    hnil behind hbehind, List.nil_append, List.append_nil, List.filterMap_reverse]

/-- **The reports are orderly.** -/
theorem orderly_construct (ho : g.OfStates) (o : Options) :
    Orderly (g.construct o).events.reverse := by
  obtain ⟨front, log, behind, hevents, hfront, hbehind, horderly⟩ := exists_log_construct ho o
  refine ⟨?_, ?_⟩
  · rw [List.filterMap_reverse, filterMap_construct (fun _ he ↦ he.1) hevents hfront hbehind,
      List.reverse_reverse]
    exact horderly.started
  · rw [List.filterMap_reverse, filterMap_construct (fun _ he ↦ he.2) hevents hfront hbehind,
      List.reverse_reverse]
    exact horderly.emitted

/-! ## Nodes and edges -/

namespace Bare

variable {bare : Graph sp} (hbare : g.Bare o bare) (hs : g.Shaped) (ho : g.OfStates)

include hbare hs ho

/-- A deadlock has one node beside the initial one, and a decomposition one for a part of a rank at
most. -/
theorem eq_of_role_eq {n m : Node sp} (hn : n ∈ bare.nodes) (hm : m ∈ bare.nodes)
    (hinitial : n.kind ≠ .initial) (hrank : n.rank = m.rank) (hkind : n.kind = m.kind) :
    n = m := by
  rcases hbare with hdead | ⟨ranking, d, hr, hd, rfl⟩
  · exact hdead.unique n hn m hm (hdead.wellFormed.id_ne_initialId hn hinitial)
      (hdead.wellFormed.id_ne_initialId hm (hkind ▸ hinitial))
  · have hf := Decomposition.finished_of_decompose hs ho hr hd
    obtain ⟨item, hfrom⟩ := hf.exists_from hn hinitial
    have hnr := hfrom.rank_eq
    exact (Decomposition.descending_of_decompose hs ho hr hd).eq_of_role?_eq_some hn hm
      (Node.role?_eq_some.mpr ⟨hnr, rfl⟩) (Node.role?_eq_some.mpr ⟨hrank ▸ hnr, hkind.symm⟩)

/-- Edges go down: a deadlock has none between other nodes than the initial one. -/
theorem before_of_joins {n m : Node sp} (hn : n ∈ bare.nodes) (hm : m ∈ bare.nodes)
    (hn0 : n.kind ≠ .initial) (hm0 : m.kind ≠ .initial) (hjoins : bare.Joins n.id m.id) :
    n.Before m := by
  rcases hbare with hdead | ⟨ranking, d, hr, hd, rfl⟩
  · have hnm := hdead.unique n hn m hm (hdead.wellFormed.id_ne_initialId hn hn0)
      (hdead.wellFormed.id_ne_initialId hm hm0)
    exact absurd (congrArg Node.id hnm) (hdead.wellFormed.ends _ _ hjoins).2.2
  · have hwf := (Decomposition.finished_of_decompose hs ho hr hd).wellFormed
    exact (Decomposition.descending_of_decompose hs ho hr hd).descends n hn m hm
      (hwf.id_ne_initialId hn hn0) (hwf.id_ne_initialId hm hm0) hjoins

end Bare

/-- **No construction breaks off for re-entering a rank.** -/
theorem not_reenters_of_build (ho : g.OfStates) {v : Violation}
    (h : g.build o = .error (.violation v)) : ¬v.Reenters := by
  cases hshape : g.shapeFault? with
  | some fault =>
    unfold build construct at h
    rw [hshape] at h
    obtain rfl : .malformedMemo (.shape fault) = v := BuildFault.violation.inj (Except.error.inj h)
    rintro ⟨r, q, hrq⟩
    cases hrq
  | none =>
    rw [build_eq hshape] at h
    cases hresult : (g.bareGraph o).result with
    | ok bare =>
      rw [hresult] at h
      cases h
    | error e =>
      rw [hresult] at h
      obtain rfl : e = .violation v := Except.error.inj h
      exact not_reenters_of_bareGraph (shaped_of_shapeFault?_eq_none hshape) ho hresult

/-- **No two nodes of a graph are the same part of one rank**: a node is of the rank and the kind of
one of those that were merged into it. -/
theorem pairwise_role_of_build (ho : g.OfStates) (hb : g.build o = .ok graph) :
    graph.nodes.Pairwise fun n m ↦ n.kind ≠ .initial → n.rank = m.rank → n.kind ≠ m.kind := by
  have hs := shaped_of_shapeFault?_eq_none (shapeFault?_of_build hb)
  obtain ⟨bare, rfl, hbare⟩ := exists_bareGraph_of_build hb
  obtain ⟨hwf', f, hf⟩ := Graph.foldsTo_finish (g := g) (hbare.wellFormed hs ho) o
  refine hwf'.ascending.imp_of_mem fun {n' m'} hn' hm' hlt hn0 hrank hkind ↦ ?_
  obtain ⟨n, hn, hnid, hnrank, hnkind⟩ := hf.exists_member n' hn'
  obtain ⟨m, hm, hmid, hmrank, hmkind⟩ := hf.exists_member m' hm'
  have hnm := hbare.eq_of_role_eq hs ho hn hm (hnkind ▸ hn0)
    (hnrank.trans (hrank.trans hmrank.symm)) (hnkind.trans (hkind.trans hmkind.symm))
  rw [← hnid, ← hmid, hnm] at hlt
  exact Nat.lt_irrefl _ hlt

/-- **Edges go down** unless chains are merged. -/
theorem before_of_build (ho : g.OfStates) (hmerge : o.mergeAttractors = false)
    (hb : g.build o = .ok graph) {n m : Node sp} (hn : n ∈ graph.nodes) (hm : m ∈ graph.nodes)
    (hn0 : n.kind ≠ .initial) (hm0 : m.kind ≠ .initial) (hjoins : graph.Joins n.id m.id) :
    n.Before m := by
  have hs := shaped_of_shapeFault?_eq_none (shapeFault?_of_build hb)
  obtain ⟨bare, rfl, hbare⟩ := exists_bareGraph_of_build hb
  obtain ⟨n', hn', hneq⟩ := exists_node_of_mem_finish hmerge hn
  obtain ⟨m', hm', hmeq⟩ := exists_node_of_mem_finish hmerge hm
  rw [hneq] at hn0 hjoins ⊢
  rw [hmeq] at hm0 hjoins ⊢
  have hbefore : n'.Before m' :=
    hbare.before_of_joins hs ho hn' hm' hn0 hm0 ((joins_finish hmerge).mp hjoins)
  exact hbefore

/-- **Decomposition only goes down.** Ranks are taken up in falling order, so each at most once, and
each part of a rank is added at most once, however the construction ends; it does not break off for
re-entering a rank. No two nodes of a graph are the same part of one rank, and unless chains are
merged, edges go to a lower rank or to a later part of the same. -/
theorem falling_of_construct (ho : g.OfStates) (o : Options) :
    ((g.construct o).events.filterMap Event.started?).Pairwise (fun q r ↦ r < q) ∧
    ((g.construct o).events.filterMap Event.emitted?).Nodup ∧
    (∀ r q, g.build o ≠ .error (.violation (.decomposedSuccessor r q))) ∧
    ∀ graph, g.build o = .ok graph →
      (graph.nodes.Pairwise fun n m ↦ n.kind ≠ .initial → n.rank = m.rank → n.kind ≠ m.kind) ∧
      (o.mergeAttractors = false → ∀ n ∈ graph.nodes, ∀ m ∈ graph.nodes, n.kind ≠ .initial →
        m.kind ≠ .initial → graph.Joins n.id m.id → n.Before m) := by
  obtain ⟨hstarted, hemitted⟩ := orderly_construct ho o
  rw [List.filterMap_reverse, List.pairwise_reverse] at hstarted
  rw [List.filterMap_reverse, List.nodup_reverse] at hemitted
  exact ⟨hstarted, hemitted, fun r q hb ↦ not_reenters_of_build ho hb ⟨r, q, rfl⟩,
    fun graph hb ↦ ⟨pairwise_role_of_build ho hb, fun hm _ hn _ hm' hn0 hm0 hjoins ↦
      before_of_build ho hm hb hn hm' hn0 hm0 hjoins⟩⟩

/-- The stairs are taken down: the higher rank leads to the lower one. -/
theorem falling_stairs : (stairs.construct {}).events.filterMap Event.started? = [1, 0] ∧
    ((stairs.construct {}).events.filterMap Event.started?).Pairwise (fun q r ↦ r < q) ∧
    ∃ graph, stairs.build {} = .ok graph ∧ ∃ n ∈ graph.nodes, ∃ m ∈ graph.nodes,
      n.kind = .attractorFromCycle ∧ m.kind = .cycle ∧ graph.Joins n.id m.id ∧ n.Before m := by
  obtain ⟨hstarted, -, -, hgraph⟩ := falling_of_construct ofStates_stairs {}
  obtain ⟨graph, hb, hany⟩ := exists_of_any_build (g := stairs) (o := {})
    (p := fun graph ↦ graph.nodes.any fun n ↦ graph.nodes.any fun m ↦
      decide (n.kind = .attractorFromCycle ∧ m.kind = .cycle ∧ m.id ∈ graph.children n.id))
    (by decide +kernel)
  obtain ⟨n, hn, hany⟩ := List.any_eq_true.mp hany
  obtain ⟨m, hm, hnm⟩ := List.any_eq_true.mp hany
  obtain ⟨hnkind, hmkind, hchild⟩ := of_decide_eq_true hnm
  have hjoins := Graph.mem_children.mp hchild
  refine ⟨by decide +kernel, hstarted, graph, hb, n, hn, m, hm, hnkind, hmkind, hjoins, ?_⟩
  exact (hgraph graph hb).2 rfl n hn m hm (by rw [hnkind]; exact fun h ↦ by cases h)
    (by rw [hmkind]; exact fun h ↦ by cases h) hjoins

end Game

end JusticeViolation

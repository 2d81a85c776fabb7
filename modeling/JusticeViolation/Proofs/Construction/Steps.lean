import JusticeViolation.Proofs.Construction.Acyclicity
import JusticeViolation.Proofs.Construction.Successors
import JusticeViolation.Proofs.Decomposition.Opening

/-!
# Edges are steps

An edge leads from one node to another, other than the initial one, if and only if a step does. In
a bare graph an edge is added only where a step is found, but it is looked for in a few places only:
from the sources of a rank to its new nodes, and among these in one order. No step is missed. What a
node leads to lies in it or in one of its children, and no other node holds it; and the initial node
has an edge to every node that holds an initial state. Where chains are merged, a step out of a node
is one out of a node that was merged into it, and so is an edge.
-/

namespace JusticeViolation

variable {sp : Space} {g : Game sp} {o : Options} {graph graph' : Graph sp}

/-! ## Graphs whose edges are steps -/

namespace Graph

/-- Nodes other than the initial one have edges from just those other nodes from which a step leads
to them. -/
def Exact (g : Game sp) (graph : Graph sp) : Prop :=
  ∀ n ∈ graph.nodes, ∀ m ∈ graph.nodes, n.id ≠ m.id → m.id ≠ initialId →
    (graph.Joins n.id m.id ↔ ∃ i ∈ n.arrivals g, i ∈ g.strip m.states)

section Folds

variable {f : Nat → Nat} (hs : g.Shaped) (hf : Folds f graph graph')
  (hsub : ∀ n ∈ graph.nodes, n.id ≠ initialId → ∀ v ∈ n.transitions, v ∈ n.states)

include hs hf hsub

/-- What arrives from a new node arrives from one of those that went there. -/
theorem Folds.mem_arrivals {n' : Node sp} (hn' : n' ∈ graph'.nodes) {i : Nat} :
    i ∈ n'.arrivals g ↔ ∃ n ∈ graph.nodes, f n.id = n'.id ∧ i ∈ n.arrivals g := by
  by_cases h0 : n'.id = initialId
  · have hroot : ∀ n ∈ graph.nodes, f n.id = n'.id → n.arrivals g = g.initial := fun n hn hid ↦
      Node.arrivals_of_eq ((hf.root n hn).mp (hid.trans h0))
    rw [Node.arrivals_of_eq h0]
    constructor
    · intro hi
      obtain ⟨n, hn, hid, -⟩ := hf.exists_member n' hn'
      exact ⟨n, hn, hid, hroot n hn hid ▸ hi⟩
    · rintro ⟨n, hn, hid, hi⟩
      exact hroot n hn hid ▸ hi
  · have hne : ∀ n ∈ graph.nodes, f n.id = n'.id → n.id ≠ initialId := fun n hn hid ↦
      hf.id_ne_initialId hn hid h0
    rw [Node.arrivals_of_ne h0,
      hf.mem_strip_image hs hn' fun n hn hid ↦ hsub n hn (hne n hn hid)]
    refine exists_congr fun n ↦ and_congr_right fun hn ↦ and_congr_right fun hid ↦ ?_
    rw [Node.arrivals_of_ne (hne n hn hid)]

/-- **Folding keeps edges to be steps**, if it adds no edges of its own. -/
theorem Exact.folds (h : graph.Exact g) (hwf : graph.WellFormed)
    (hcurrent : ∀ n ∈ graph.nodes, n.states.Current)
    (hedges : ∀ a b, graph'.Joins a b → a ≠ b ∧ ∃ a' b', graph.Joins a' b' ∧ f a' = a ∧ f b' = b) :
    graph'.Exact g := by
  intro n' hn' m' hm' hne h0
  constructor
  · intro hjoins
    obtain ⟨-, a, b, hab, hnid, hmid⟩ := hedges _ _ hjoins
    obtain ⟨⟨n, hn, rfl⟩, ⟨m, hm, rfl⟩, hne'⟩ := hwf.ends a b hab
    obtain ⟨i, hi, him⟩ := (h n hn m hm hne' (hf.id_ne_initialId hm hmid h0)).mp hab
    exact ⟨i, (hf.mem_arrivals hs hsub hn').mpr ⟨n, hn, hnid, hi⟩,
      hf.mem_strip_states hs hm' hm hmid him⟩
  · rintro ⟨i, hi, him⟩
    obtain ⟨n, hn, hnid, hi⟩ := (hf.mem_arrivals hs hsub hn').mp hi
    obtain ⟨m, hm, hmid, him⟩ := hf.exists_of_mem_strip hcurrent hs hm' him
    rw [← hnid, ← hmid] at hne ⊢
    have hne' : n.id ≠ m.id := fun heq ↦ hne (congrArg f heq)
    exact hf.joins n.id m.id
      ((h n hn m hm hne' (hf.id_ne_initialId hm hmid h0)).mpr ⟨i, hi, him⟩) hne

end Folds

end Graph

/-! ## Bare graphs -/

namespace Game

/-- The edge of a deadlock leads to initial states that can be left stuck. -/
theorem exact_of_deadlockGraph? (hs : g.Shaped) (h : g.deadlockGraph? = some graph) :
    graph.Exact g := by
  have hdead := deadlock_of_deadlockGraph? h
  obtain ⟨v, hv⟩ : ∃ v, v ∈ g.deadlocking ∩ g.initial := by
    by_contra hno
    rw [not_exists, ← deadlockGraph?_eq_none_iff_forall, h] at hno
    cases hno
  intro n hn m hm hne h0
  have hn0 : n.id = Graph.initialId := by
    by_contra hn0
    exact hne (congrArg Node.id (hdead.unique n hn m hm hn0 h0))
  rw [Node.arrivals_of_eq hn0, (hdead.stuck m hm h0).1, hn0]
  exact iff_of_true (hdead.joined m hm h0) ⟨v, (StateSet.mem_inter.mp hv).2,
    hs.mem_strip_of_mem (current_domain _) (mem_domain_of_mem hv)⟩

open Decomposition in
/-- **A decomposition misses no step**: no two nodes hold the same state, so a node that holds what
another leads to is the child that has to hold it. -/
theorem exact_of_decompose {ranking : Ranking sp} {d : Decomposition sp} (hs : g.Shaped)
    (ho : g.OfStates) (hcover : g.RowsCover) (hr : g.ranking? = some ranking)
    (hd : g.decompose o ranking = .ok d) : d.graph.Exact g := by
  have hlinked := linked_of_decompose hd
  have hclosed := (finished_of_decompose hs ho hr hd).closed hs ho hcover
  have hopened := opened_of_decompose hs ho hcover hr hd
  have hbare : g.Bare o d.graph := Or.inr ⟨ranking, d, hr, hd, rfl⟩
  intro n hn m hm hne h0
  constructor
  · intro hjoins
    obtain ⟨s, hstates, i, hi⟩ := hlinked.witnessed n.id m.id hjoins
    rw [hlinked.numbered.simple.edgeStates?_eq hn hm, Option.some.injEq] at hstates
    rw [← hstates] at hi
    exact ⟨i, StateSet.mem_inter.mp hi⟩
  · rintro ⟨i, hi, him⟩
    by_cases hn0 : n.id = Graph.initialId
    · rw [Node.arrivals_of_eq hn0] at hi
      rw [hn0]
      exact hopened.joined m hm h0 i hi him
    · rw [Node.arrivals_of_ne hn0] at hi
      rcases hclosed.covered n hn hn0 i hi with hself | ⟨k, hk, hjoins, hik⟩
      · exact absurd him
          (hbare.disjoint hs ho hn hm hn0 h0 (fun heq ↦ hne (congrArg Node.id heq)) hself)
      · -- edges lead to higher numbers, so this child is not the initial node, and can only be `m`
        have hk0 : k.id ≠ Graph.initialId :=
          Nat.ne_of_gt (Nat.zero_lt_of_lt (hlinked.numbered.ascends n.id k.id hjoins))
        have hkm : k = m := by
          by_contra hkm
          exact hbare.disjoint hs ho hk hm hk0 h0 hkm hik him
        exact hkm ▸ hjoins

/-! ## The graph -/

/-- **Edges are steps.** Of two nodes, the second not the initial one, the first has an edge to the
second if and only if the edge carries a state. -/
theorem joins_iff_of_build (ho : g.OfStates) (hcover : g.RowsCover) (hb : g.build o = .ok graph)
    {p q : Node sp} (hp : p ∈ graph.nodes) (hq : q ∈ graph.nodes) (hne : p ≠ q)
    (hq0 : q.kind ≠ .initial) :
    ∃ s, graph.edgeStates? g p.id q.id = some s ∧ (graph.Joins p.id q.id ↔ ∃ i, i ∈ s) := by
  have hs := shaped_of_shapeFault?_eq_none (shapeFault?_of_build hb)
  obtain ⟨bare, hresult, rfl⟩ := exists_result_of_build hb
  have hwf := (numbered_of_bareGraph hresult).toWellFormed
  have hcases := cases_of_bareGraph hresult
  have hbare : g.Bare o bare := hcases.imp_left deadlock_of_deadlockGraph?
  obtain ⟨hclosed, hexact⟩ : bare.Closed g ∧ bare.Exact g := by
    rcases hcases with hdead | ⟨ranking, d, hr, hd, rfl⟩
    · exact ⟨(deadlock_of_deadlockGraph? hdead).closed hs, exact_of_deadlockGraph? hs hdead⟩
    · exact ⟨(Decomposition.finished_of_decompose hs ho hr hd).closed hs ho hcover,
        exact_of_decompose hs ho hcover hr hd⟩
  obtain ⟨f, hf, hedges⟩ := Graph.exists_folds_finish (g := g) hwf o
  have hexact' := Graph.Exact.folds hs hf hclosed.mem_states hexact hwf
    (fun n hn ↦ hbare.current hs ho hn) hedges
  have hwf' := (Graph.foldsTo_finish (g := g) hwf o).1
  refine ⟨_, hwf'.simple.edgeStates?_eq hp hq, ?_⟩
  rw [hexact' p hp q hq (fun hid ↦ hne (hwf'.eq_of_id_eq hp hq hid)) (hwf'.id_ne_initialId hq hq0)]
  exact exists_congr fun i ↦ StateSet.mem_inter.symm

theorem rowsCover_flight : flight.RowsCover := fun r row i hr hrow hi _ ↦ by
  have huniv : i ∈ (.univ : StateSet bits) := StateSet.mem_univ.mpr (StateSet.lt_size hi)
  have hall : ∀ r < 3, ∀ row < 2, ∃ k, k < 2 ∧ flight.layer r row k = .univ := by decide
  obtain ⟨k, -, hk⟩ := hall r hr row hrow
  exact ⟨k, hk ▸ huniv⟩

/-- In a flight of stairs the merged descents lead to the cycle, and nothing leads back. -/
theorem joins_iff_flight : ∃ graph, flight.build { mergeAttractors := true } = .ok graph ∧
    ∃ p ∈ graph.nodes, ∃ q ∈ graph.nodes, p.kind = .attractorFromCycle ∧ q.kind = .cycle ∧
      (∃ s, graph.edgeStates? flight p.id q.id = some s ∧ ∃ i, i ∈ s) ∧
      ∃ s, graph.edgeStates? flight q.id p.id = some s ∧ ¬∃ i, i ∈ s := by
  obtain ⟨graph, hb, hany⟩ := exists_of_any_build (g := flight) (o := { mergeAttractors := true })
    (p := fun graph ↦ decide (∃ p ∈ graph.nodes, ∃ q ∈ graph.nodes,
      p.kind = .attractorFromCycle ∧ q.kind = .cycle ∧ graph.Joins p.id q.id ∧
        ¬graph.Joins q.id p.id)) (by decide +kernel)
  obtain ⟨p, hp, q, hq, hpk, hqk, hthere, hback⟩ := of_decide_eq_true hany
  have hne : p ≠ q := fun heq ↦ by
    rw [heq, hqk] at hpk
    cases hpk
  obtain ⟨s, hs, hiff⟩ := joins_iff_of_build ofStates_flight rowsCover_flight hb hp hq hne
    fun h ↦ by rw [hqk] at h; cases h
  obtain ⟨t, ht, hiff'⟩ := joins_iff_of_build ofStates_flight rowsCover_flight hb hq hp hne.symm
    fun h ↦ by rw [hpk] at h; cases h
  exact ⟨graph, hb, p, hp, q, hq, hpk, hqk, ⟨s, hs, hiff.mp hthere⟩, t, ht,
    fun h ↦ hback (hiff'.mpr h)⟩

end Game

end JusticeViolation

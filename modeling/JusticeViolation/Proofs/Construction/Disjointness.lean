import JusticeViolation.Proofs.Construction.Order

/-!
# Nodes do not overlap

No state belongs to two nodes other than the initial one, whatever tags it has in them. Nodes of
different ranks hold states of different levels. A rank is taken up once, so its nodes are parts of
one split, one for each kind, and these are disjoint. Where chains are merged, a node holds what
those that were merged into it held, and no node is merged into two.
-/

namespace JusticeViolation

variable {sp : Space} {g : Game sp} {graph : Graph sp} {o : Options}

open Decomposition in
/-- Nodes of different kinds for one rank do not overlap. -/
theorem Node.From.disjoint {ranking : Ranking sp} {n m : Node sp} {item : Item sp}
    (hs : g.Shaped) (ho : g.OfStates) (hn : n.From g ranking item) (hm : m.From g ranking item)
    (hkind : n.kind ≠ m.kind) {i : Nat} (hi : i ∈ g.strip n.states) : i ∉ g.strip m.states := by
  rw [hn.part_eq] at hi
  rw [hm.part_eq]
  rcases Nat.lt_or_gt_of_ne fun heq ↦ hkind (NodeKind.place_injective heq) with hlt | hgt
  · exact Item.Ready.disjoint_parts hs ho hn.ready hn.explored hlt hi
  · exact fun him ↦ Item.Ready.disjoint_parts hs ho hn.ready hn.explored hgt him hi

section Folds

variable {graph' : Graph sp} {f : Nat → Nat} (hf : Graph.Folds f graph graph')
  (hcurrent : ∀ n ∈ graph.nodes, n.states.Current)

include hf hcurrent

/-- If the states of all nodes are current, then so are those of the new nodes. -/
theorem Graph.Folds.current {n' : Node sp} (hn' : n' ∈ graph'.nodes) : n'.states.Current :=
  fun i j hi hj hij ↦ by
    rw [hf.mem_states n' hn', hf.mem_states n' hn']
    refine exists_congr fun n ↦ and_congr_right fun hn ↦ and_congr_right fun _ ↦ ?_
    exact hcurrent n hn i j hi hj hij

/-- What a new node holds under some tag, a node that went there does. -/
theorem Graph.Folds.exists_of_mem_strip (hs : g.Shaped) {n' : Node sp} (hn' : n' ∈ graph'.nodes)
    {i : Nat} (hi : i ∈ g.strip n'.states) :
    ∃ n ∈ graph.nodes, f n.id = n'.id ∧ i ∈ g.strip n.states := by
  obtain ⟨hlt, j, hj, hji⟩ := (hs.mem_strip (hf.current hcurrent hn')).mp hi
  obtain ⟨n, hn, hid, hjn⟩ := (hf.mem_states n' hn' j).mp hj
  exact ⟨n, hn, hid, (hs.mem_strip (hcurrent n hn)).mpr ⟨hlt, j, hjn, hji⟩⟩

end Folds

namespace Game

/-- Nodes of a bare graph do not overlap. -/
theorem Bare.disjoint {bare : Graph sp} (hbare : g.Bare o bare) (hs : g.Shaped) (ho : g.OfStates)
    {n m : Node sp} (hn : n ∈ bare.nodes) (hm : m ∈ bare.nodes) (hn0 : n.id ≠ Graph.initialId)
    (hm0 : m.id ≠ Graph.initialId) (hne : n ≠ m) {i : Nat} (hi : i ∈ g.strip n.states) :
    i ∉ g.strip m.states := by
  have hrole := fun hkind ↦ hbare.eq_of_role_eq hs ho hn hm hkind
  rcases hbare with hdead | ⟨ranking, d, hr, hd, rfl⟩
  · exact absurd (hdead.unique n hn m hm hn0 hm0) hne
  · have hfinished := Decomposition.finished_of_decompose hs ho hr hd
    obtain ⟨items, horigin⟩ := hfinished.origin
    obtain ⟨r, hrank, hnfrom⟩ := horigin n hn hn0
    obtain ⟨q, hrank', hmfrom⟩ := horigin m hm hm0
    by_cases hrq : r = q
    · subst hrq
      refine hnfrom.disjoint hs ho hmfrom (fun hkind ↦ hne ?_) hi
      refine hrole (fun h0 ↦ hn0 ((hfinished.wellFormed.initial_iff n hn).mp h0)) ?_ hkind
      rw [hnfrom.rank_eq, hmfrom.rank_eq]
    · refine fun him ↦ hrq ?_
      rw [← hrank, ← hrank']
      exact hs.level_disjoint (hnfrom.level_of_mem_strip hs ho hi)
        (hmfrom.level_of_mem_strip hs ho him)

/-- **Nodes do not overlap.** The states of two nodes other than the initial one are disjoint, tags
aside. -/
theorem disjoint_of_build (ho : g.OfStates) (hb : g.build o = .ok graph) :
    graph.nodes.Pairwise fun n m ↦ n.kind ≠ .initial → m.kind ≠ .initial →
      ∀ i ∈ g.strip n.states, i ∉ g.strip m.states := by
  have hs := shaped_of_shapeFault?_eq_none (shapeFault?_of_build hb)
  obtain ⟨bare, rfl, hbare⟩ := exists_bareGraph_of_build hb
  obtain ⟨hwf, f, hf⟩ := Graph.foldsTo_finish (g := g) (hbare.wellFormed hs ho) o
  have hcurrent : ∀ n ∈ bare.nodes, n.states.Current := fun n hn ↦ hbare.current hs ho hn
  refine hwf.ascending.imp_of_mem fun {n' m'} hn' hm' hlt hn0 hm0 i hin him ↦ ?_
  obtain ⟨n, hn, hnid, hin⟩ := hf.exists_of_mem_strip hcurrent hs hn' hin
  obtain ⟨m, hm, hmid, him⟩ := hf.exists_of_mem_strip hcurrent hs hm' him
  have hne : n ≠ m := fun heq ↦ by
    rw [← hnid, ← hmid, heq] at hlt
    exact Nat.lt_irrefl _ hlt
  exact hbare.disjoint hs ho hn hm (hf.id_ne_initialId hn hnid (hwf.id_ne_initialId hn' hn0))
    (hf.id_ne_initialId hm hmid (hwf.id_ne_initialId hm' hm0)) hne hin him

/-- Stairs with a rank for every step: the environment clears its bit to go down to the middle one,
from which the system has to clear its own. -/
def flight : Game bits where
  initial := .literal ⟨0⟩ 1 ∩ .literal ⟨2⟩ 1
  envTrans := .univ
  sysTrans := (.literal ⟨0⟩ 1 ∩ .literal ⟨2⟩ 1 ∩ .literal ⟨3⟩ 1) ∪
    (.literal ⟨0⟩ 0 ∪ .literal ⟨2⟩ 0) ∩ .literal ⟨3⟩ 0
  ranks := [.literal ⟨2⟩ 0, .literal ⟨2⟩ 0 ∪ .literal ⟨0⟩ 0, .univ]
  progress := [[[.literal ⟨0⟩ 1, .univ], [.literal ⟨0⟩ 0, .univ]], [[.univ], [.univ]],
    [[.univ], [.univ]]]
  assumptions := [⟨"set", "e"⟩, ⟨"cleared", "!e"⟩]
  guarantees := [⟨"never", "false"⟩]
  marker := ⟨4⟩

theorem ofStates_flight : flight.OfStates where
  initial := (StateSet.DependsOn.literal (by decide) (by decide) 1).inter
    (.literal (by decide) (by decide) 1)
  ranks := fun s hs ↦ by
    rcases List.mem_cons.mp hs with rfl | hs
    · exact .literal (by decide) (by decide) 0
    rcases List.mem_pair.mp hs with rfl | rfl
    · exact (StateSet.DependsOn.literal (by decide) (by decide) 0).union
        (.literal (by decide) (by decide) 0)
    · exact .univ _
  layers := fun matrix hm row hrow s hs ↦ by
    rcases List.mem_cons.mp hm with rfl | hm
    · rcases List.mem_pair.mp hrow with rfl | rfl <;> rcases List.mem_pair.mp hs with rfl | rfl
      · exact .literal (by decide) (by decide) 1
      · exact .univ _
      · exact .literal (by decide) (by decide) 0
      · exact .univ _
    · rw [List.mem_pair, or_self] at hm
      rw [hm, List.mem_pair, or_self] at hrow
      rw [hrow] at hs
      exact List.mem_singleton.mp hs ▸ .univ _

/-- In a flight of stairs the descents of two ranks are merged, and stay apart from the cycle. -/
theorem disjoint_flight : ∃ graph, flight.build { mergeAttractors := true } = .ok graph ∧
    (∃ n ∈ graph.nodes, n.kind = .attractorFromCycle ∧ (∃ i ∈ n.states, i ∈ flight.level 2) ∧
      ∃ i ∈ n.states, i ∈ flight.level 1) ∧
    (∃ n ∈ graph.nodes, n.kind = .cycle) ∧
    graph.nodes.Pairwise fun n m ↦ n.kind ≠ .initial → m.kind ≠ .initial →
      ∀ i ∈ flight.strip n.states, i ∉ flight.strip m.states := by
  obtain ⟨graph, hb, hany⟩ := exists_of_any_build (g := flight) (o := { mergeAttractors := true })
    (p := fun graph ↦ (graph.nodes.any fun n ↦ decide (n.kind = .attractorFromCycle) &&
        ((List.range 64).any fun i ↦ decide (i ∈ n.states ∧ i ∈ flight.level 2)) &&
        (List.range 64).any fun i ↦ decide (i ∈ n.states ∧ i ∈ flight.level 1)) &&
      graph.nodes.any fun n ↦ decide (n.kind = .cycle)) (by decide +kernel)
  rw [Bool.and_eq_true] at hany
  obtain ⟨n, hn, hmerged⟩ := List.any_eq_true.mp hany.1
  rw [Bool.and_eq_true, Bool.and_eq_true, decide_eq_true_iff] at hmerged
  obtain ⟨⟨hkind, hhigh⟩, hlow⟩ := hmerged
  obtain ⟨i, -, hi⟩ := List.any_eq_true.mp hhigh
  obtain ⟨j, -, hj⟩ := List.any_eq_true.mp hlow
  obtain ⟨m, hm, hcycle⟩ := List.any_eq_true.mp hany.2
  exact ⟨graph, hb, ⟨n, hn, hkind, ⟨i, of_decide_eq_true hi⟩, j, of_decide_eq_true hj⟩,
    ⟨m, hm, of_decide_eq_true hcycle⟩, disjoint_of_build ofStates_flight hb⟩

end Game

end JusticeViolation

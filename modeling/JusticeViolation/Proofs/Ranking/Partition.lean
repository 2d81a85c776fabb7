import JusticeViolation.Proofs.Game.Solution
import JusticeViolation.Proofs.Ranking.Levels

/-!
# The ranking graph as a partition

The nodes of a ranking graph cut what the ranks hold into parts, one for each rank that is the
lowest one of some state. Three structures speak of these parts: the list of nodes, the node of a
rank and the number of the node of a rank. They agree, because the list is sorted by rank.

Only the lowest rank of a state counts. A rank may be exchanged for its union with the ranks before
it, and the graph stays the same.
-/

namespace JusticeViolation

/-! ## Running unions -/

namespace StateSet

variable {sp : Space}

/-- Each set together with those before it. -/
def accumulate (ss : List (StateSet sp)) : List (StateSet sp) :=
  (List.range ss.length).map fun k ↦ unionAll (ss.take (k + 1))

theorem length_accumulate (ss : List (StateSet sp)) : (accumulate ss).length = ss.length := by
  rw [accumulate, List.length_map, List.length_range]

theorem mem_getD_accumulate {ss : List (StateSet sp)} {k i : Nat} (hk : k < ss.length) :
    i ∈ (accumulate ss).getD k ∅ ↔ ∃ q, q ≤ k ∧ i ∈ ss.getD q ∅ := by
  rw [List.getD_eq_getElem _ _ ((length_accumulate ss).symm ▸ hk)]
  simp only [accumulate, List.getElem_map, List.getElem_range]
  rw [mem_unionAll]
  constructor
  · rintro ⟨s, hs, hi⟩
    obtain ⟨q, hq, rfl⟩ := List.mem_take_iff_getElem.mp hs
    have hlt : q < ss.length := (Nat.lt_min.mp hq).2
    exact ⟨q, Nat.lt_succ_iff.mp (Nat.lt_min.mp hq).1, by rwa [List.getD_eq_getElem _ _ hlt]⟩
  · rintro ⟨q, hq, hi⟩
    have hlt : q < ss.length := Nat.lt_of_le_of_lt hq hk
    rw [List.getD_eq_getElem _ _ hlt] at hi
    exact ⟨ss[q], List.mem_take_iff_getElem.mpr
      ⟨q, Nat.lt_min.mpr ⟨Nat.lt_succ_of_le hq, hlt⟩, rfl⟩, hi⟩

/-- **Running unions have the same increments**: what is first met in the union up to a set is first
met in that set. -/
theorem increments_accumulate (ss : List (StateSet sp)) :
    increments ∅ (accumulate ss) = increments ∅ ss := by
  refine List.ext_getElem (by simp only [length_increments, length_accumulate])
    fun k hk hk' ↦ ext_mem fun i ↦ ?_
  have hlt : k < ss.length := by rwa [length_increments] at hk'
  rw [← List.getD_eq_getElem _ ∅ hk, ← List.getD_eq_getElem _ ∅ hk', mem_getD_increments,
    mem_getD_increments]
  constructor
  · rintro ⟨hi, hempty, hno⟩
    obtain ⟨q, hq, hiq⟩ := (mem_getD_accumulate hlt).mp hi
    have hbelow : ∀ j, j < k → i ∉ ss.getD j ∅ := fun j hj hij ↦
      hno j hj ((mem_getD_accumulate (hj.trans hlt)).mpr ⟨j, Nat.le_refl j, hij⟩)
    have heq : q = k := Nat.le_antisymm hq (Nat.not_lt.mp fun hqk ↦ hbelow q hqk hiq)
    exact ⟨heq ▸ hiq, hempty, hbelow⟩
  · rintro ⟨hi, hempty, hno⟩
    refine ⟨(mem_getD_accumulate hlt).mpr ⟨k, Nat.le_refl k, hi⟩, hempty, fun j hj hij ↦ ?_⟩
    obtain ⟨p, hp, hip⟩ := (mem_getD_accumulate (hj.trans hlt)).mp hij
    exact hno p (Nat.lt_of_le_of_lt hp hj) hip

end StateSet

namespace Game

variable {sp : Space} {g : Game sp}

/-- The game whose ranks hold the ranks before them as well. -/
def accumulated (g : Game sp) : Game sp := { g with ranks := StateSet.accumulate g.ranks }

theorem numRanks_accumulated : g.accumulated.numRanks = g.numRanks :=
  StateSet.length_accumulate g.ranks

/-- The levels stay the same. -/
theorem levels_accumulated : g.accumulated.levels = g.levels :=
  StateSet.increments_accumulate g.ranks

theorem rankNodes_accumulated (ls : List (Nat × StateSet sp)) :
    g.accumulated.rankNodes ls = g.rankNodes ls := by
  induction ls with
  | nil => rfl
  | cons l ls ih => rw [rankNodes, rankNodes, ih]; rfl

/-- **Running unions make the same graph.** -/
theorem ranking?_accumulated : g.accumulated.ranking? = g.ranking? := by
  have hocc : g.accumulated.occupied = g.occupied := by rw [occupied, levels_accumulated, occupied]
  unfold ranking?
  rw [numRanks_accumulated, hocc, rankNodes_accumulated]
  rfl

end Game

namespace Ranking

open Game

variable {sp : Space} {g : Game sp} {ranking : Ranking sp}

/-! ## Numbers of nodes -/

section Numbers

variable (hr : g.ranking? = some ranking)

include hr

theorem node?_eq_some_iff {r : Nat} {n : RankNode sp} :
    ranking.node? r = some n ↔ n ∈ ranking.nodes ∧ n.rank = r := by
  refine ⟨mem_of_node?_eq_some, ?_⟩
  rintro ⟨hn, rfl⟩
  exact node?_eq_some hr hn

theorem nodeId?_eq_some_iff {r id : Nat} :
    ranking.nodeId? r = some id ↔
      0 < id ∧ ∃ n, ranking.nodes[id - 1]? = some n ∧ n.rank = r := by
  have hfind : ∀ k, ranking.nodes.findIdx? (·.rank == r) = some k ↔
      ∃ n, ranking.nodes[k]? = some n ∧ n.rank = r := by
    intro k
    rw [List.findIdx?_eq_some_iff_getElem]
    constructor
    · rintro ⟨hk, hrank, -⟩
      exact ⟨_, List.getElem?_eq_getElem hk, beq_iff_eq.mp hrank⟩
    · rintro ⟨n, hn, hrank⟩
      obtain ⟨hk, rfl⟩ := List.getElem?_eq_some_iff.mp hn
      refine ⟨hk, beq_iff_eq.mpr hrank, fun j hj hjr ↦ ?_⟩
      -- earlier nodes have higher ranks
      have hlt := List.pairwise_iff_getElem.mp (pairwise_nodes hr) j k (hj.trans hk) hk hj
      exact Nat.ne_of_gt hlt ((beq_iff_eq.mp hjr).trans hrank.symm)
  rw [nodeId?, Option.map_eq_some_iff]
  constructor
  · rintro ⟨k, hk, rfl⟩
    exact ⟨Nat.succ_pos k, (hfind k).mp hk⟩
  · rintro ⟨hpos, hn⟩
    exact ⟨id - 1, (hfind _).mpr hn, Nat.sub_add_cancel hpos⟩

/-- The nodes are numbered one after another, from 1 on. -/
theorem map_nodeId? : ranking.nodes.map (fun n ↦ ranking.nodeId? n.rank) =
    (List.range' 1 ranking.nodes.length).map some := by
  refine List.ext_getElem (by simp only [List.length_map, List.length_range']) fun k hk hk' ↦ ?_
  have hlt : k < ranking.nodes.length := by rwa [List.length_map] at hk
  rw [List.getElem_map, List.getElem_map, List.getElem_range', nodeId?_eq_some_iff hr]
  refine ⟨by omega, ranking.nodes[k], ?_, rfl⟩
  rw [show 1 + 1 * k - 1 = k by omega, List.getElem?_eq_getElem hlt]

end Numbers

/-! ## The partition -/

/-- What makes a ranking graph the partition of a game by lowest ranks. -/
structure Partitions (ranking : Ranking sp) (g : Game sp) : Prop where
  /-- No part is empty. -/
  nonempty : ∀ n ∈ ranking.nodes, ∃ i, i ∈ n.states
  disjoint : ranking.nodes.Pairwise fun n m ↦ ∀ i ∈ n.states, i ∉ m.states
  /-- The parts hold together what the ranks hold. -/
  cover : ∀ i, (∃ n ∈ ranking.nodes, i ∈ n.states) ↔ ∃ s ∈ g.ranks, i ∈ s
  /-- The part of a rank holds the states whose lowest rank it is. -/
  lowest : ∀ n ∈ ranking.nodes, ∀ i, i ∈ n.states ↔ g.Lowest n.rank i
  /-- A rank has no part if and only if it is the lowest one of no state. -/
  absent : ∀ r, (∀ n ∈ ranking.nodes, n.rank ≠ r) ↔ ∀ i, ¬g.Lowest r i
  /-- The marker, which has number 0, has a rank above all nodes. -/
  marker : ranking.numRanks = g.numRanks ∧ ∀ n ∈ ranking.nodes, n.rank < ranking.numRanks
  falling : ranking.nodes.Pairwise fun n m ↦ m.rank < n.rank
  /-- The numbers of the nodes follow one another. -/
  consecutive : ranking.nodes.map (fun n ↦ ranking.nodeId? n.rank) =
    (List.range' 1 ranking.nodes.length).map some
  /-- The node of a rank is the node with that rank. -/
  node?_iff : ∀ r n, ranking.node? r = some n ↔ n ∈ ranking.nodes ∧ n.rank = r
  /-- The number of a rank is the place of the node with that rank, counted from 1. -/
  nodeId?_iff : ∀ r id, ranking.nodeId? r = some id ↔
    0 < id ∧ ∃ n, ranking.nodes[id - 1]? = some n ∧ n.rank = r
  /-- Running unions make the same graph. -/
  accumulated : g.accumulated.ranking? = some ranking

/-- Nodes are disjoint, for a state has one lowest rank only. -/
theorem pairwise_disjoint_nodes (hr : g.ranking? = some ranking) :
    ranking.nodes.Pairwise fun n m ↦ ∀ i ∈ n.states, i ∉ m.states := by
  refine (pairwise_nodes hr).imp_of_mem fun {n m} hn hm hlt i hin him ↦ ?_
  have heq := ((mem_states_iff hr hn).mp hin).unique ((mem_states_iff hr hm).mp him)
  exact Nat.ne_of_gt hlt heq

theorem exists_mem_states_iff (hr : g.ranking? = some ranking) {i : Nat} :
    (∃ n ∈ ranking.nodes, i ∈ n.states) ↔ ∃ s ∈ g.ranks, i ∈ s := by
  rw [← exists_mem_rank_iff]
  constructor
  · rintro ⟨n, hn, hi⟩
    exact ⟨n.rank, ((mem_states_iff hr hn).mp hi).1⟩
  · rintro ⟨r, hi⟩
    obtain ⟨q, -, hq⟩ := exists_lowest hi
    obtain ⟨n, hn, rfl⟩ := exists_node_of_lowest hr hq
    exact ⟨n, hn, (mem_states_iff hr hn).mpr hq⟩

theorem exists_node_iff (hr : g.ranking? = some ranking) {r : Nat} :
    (∃ n ∈ ranking.nodes, n.rank = r) ↔ ∃ i, g.Lowest r i := by
  constructor
  · rintro ⟨n, hn, rfl⟩
    obtain ⟨i, hi⟩ := exists_mem_states hr hn
    exact ⟨i, (mem_states_iff hr hn).mp hi⟩
  · rintro ⟨i, hi⟩
    exact exists_node_of_lowest hr hi

/-- **The nodes of a ranking graph are a partition** of what the ranks hold, by lowest rank, however
the ranks overlap. -/
theorem partitions_of_ranking? (hr : g.ranking? = some ranking) : ranking.Partitions g where
  nonempty := fun _ hn ↦ exists_mem_states hr hn
  disjoint := pairwise_disjoint_nodes hr
  cover := fun _ ↦ exists_mem_states_iff hr
  lowest := fun _ hn _ ↦ mem_states_iff hr hn
  absent := fun r ↦ by
    have hnone := not_congr (exists_node_iff (r := r) hr)
    simpa only [not_exists, not_and] using hnone
  marker := ⟨numRanks_eq hr, fun _ hn ↦ numRanks_eq hr ▸ rank_lt_numRanks hr hn⟩
  falling := pairwise_nodes hr
  consecutive := map_nodeId? hr
  node?_iff := fun _ _ ↦ node?_eq_some_iff hr
  nodeId?_iff := fun _ _ ↦ nodeId?_eq_some_iff hr
  accumulated := ranking?_accumulated.trans hr

end Ranking

/-! ## Scattered ranks -/

namespace Game

/-- The ranks do not grow, and rank 1 is the lowest one of no state. -/
def scattered : Game bits :=
  { turns with ranks := [.literal ⟨0⟩ 1, .literal ⟨0⟩ 1, .literal ⟨2⟩ 1, .literal ⟨0⟩ 0] }

theorem partitions_scattered : ∃ ranking, scattered.ranking? = some ranking ∧
    ranking.nodes.map (·.rank) = [3, 2, 0] ∧ ranking.Partitions scattered := by
  have hany : (scattered.ranking?.any fun ranking ↦
      decide (ranking.nodes.map (·.rank) = [3, 2, 0])) = true := by decide +kernel
  obtain ⟨ranking, hr, hranks⟩ := (Option.any_eq_true _ _).mp hany
  exact ⟨ranking, hr, of_decide_eq_true hranks, Ranking.partitions_of_ranking? hr⟩

end Game

end JusticeViolation

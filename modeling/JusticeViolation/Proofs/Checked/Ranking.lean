import JusticeViolation.Proofs.Checked.Basic
import JusticeViolation.Proofs.Ranking.Partition

/-!
# The ranking graph in range

The ranks are gone through from the highest down, and the level of each is looked up: once for all
ranks, and once more below every rank that has a node. There are as many levels as ranks. The nodes
are then numbered, the marker first, and the ranks at both ends of every edge are looked up by the
numbers of its nodes; an edge leads to a rank that has a node, so there is such a number.
-/

namespace JusticeViolation

open Checked

variable {sp : Space}

namespace Ranking

variable (r : Ranking sp)

/-- The rank of the node of a number. -/
def checkedRank (id : Nat) : Checked Nat := lookup (r.numRanks :: r.nodes.map (·.rank)) id

/-- The ranks at the ends of the edges of each node, by the numbers of the nodes. -/
def checkedEnds : Checked (List (List (Nat × Nat))) :=
  r.nodes.mapM fun n ↦ n.targets.mapM fun target ↦ do
    let source ← found (r.nodeId? n.rank)
    let target ← found (r.nodeId? target)
    return (← r.checkedRank source, ← r.checkedRank target)

end Ranking

namespace Game

variable (g : Game sp)

/-- The level of a rank. -/
def checkedLevel (rank : Nat) : Checked (Nat × StateSet sp) := do
  let states ← lookup g.levels rank
  return (rank, states)

/-- The ranks below `bound` with a level that is not empty, with these levels, from the highest
down. -/
def checkedOccupied (bound : Nat) : Checked (List (Nat × StateSet sp)) := do
  let levels ← (List.range bound).reverse.mapM g.checkedLevel
  return levels.filter fun l ↦ !l.2.isEmpty

/-- The node of a level. -/
def checkedRankNode (level : Nat × StateSet sp) : Checked (RankNode sp) := do
  let below ← g.checkedOccupied level.1
  return g.rankNode level below

/-- The ranking graph; none if no rank can be reached from the initial states. -/
def checkedRanking? : Checked (Option (Ranking sp)) := do
  let occupied ← g.checkedOccupied g.numRanks
  let reach := g.reachable g.initial .univ
  let entries := (occupied.filter fun l ↦ l.2.meets reach).map (·.1)
  if entries.isEmpty then return none
  else do
    let nodes ← occupied.mapM g.checkedRankNode
    let ranking : Ranking sp := ⟨g.numRanks, nodes, entries⟩
    let _ ← ranking.checkedEnds
    return some ranking

/-! ## Levels -/

variable {g}

theorem filter_range_lt {bound n : Nat} (h : bound ≤ n) :
    (List.range n).filter (· < bound) = List.range bound := by
  obtain ⟨k, rfl⟩ := Nat.exists_eq_add_of_le h
  have hlow : (List.range bound).filter (· < bound) = List.range bound :=
    List.filter_eq_self.mpr fun i hi ↦ decide_eq_true (List.mem_range.mp hi)
  have hhigh : ((List.range k).map (bound + ·)).filter (· < bound) = [] := by
    refine List.filter_eq_nil_iff.mpr fun i hi hlt ↦ ?_
    obtain ⟨j, -, rfl⟩ := List.mem_map.mp hi
    exact absurd (of_decide_eq_true hlt) (Nat.not_lt.mpr (Nat.le_add_right _ _))
  rw [List.range_add, List.filter_append, hlow, hhigh, List.append_nil]

/-- The occupied ranks, by the levels of all ranks. -/
theorem occupied_eq :
    g.occupied = ((List.range g.numRanks).reverse.map fun rank ↦
      (rank, g.levels.getD rank ∅)).filter fun l ↦ !l.2.isEmpty := by
  rw [occupied, map_zipIdx_eq _ _ ∅, length_levels, List.map_reverse]

theorem checkedOccupied_eq {bound : Nat} (h : bound ≤ g.numRanks) :
    g.checkedOccupied bound = .ok (g.occupied.filter fun l ↦ l.1 < bound) := by
  have hlevel : ∀ rank ∈ (List.range bound).reverse,
      g.checkedLevel rank = .ok (rank, g.levels.getD rank ∅) := fun rank hrank ↦ by
    rw [List.mem_reverse, List.mem_range] at hrank
    rw [checkedLevel, lookup_getD (length_levels ▸ hrank.trans_le h) ∅]
    rfl
  have hlow : ((List.range g.numRanks).reverse.map fun rank ↦
      (rank, g.levels.getD rank ∅)).filter (fun l ↦ l.1 < bound) =
      (List.range bound).reverse.map fun rank ↦ (rank, g.levels.getD rank ∅) := by
    rw [List.filter_map, List.filter_reverse, ← filter_range_lt h]
    rfl
  rw [checkedOccupied, mapM_eq_ok hlevel, ok_bind, pure_eq_ok, occupied_eq, List.filter_comm, hlow]

theorem filter_occupied : (g.occupied.filter fun l ↦ l.1 < g.numRanks) = g.occupied := by
  refine List.filter_eq_self.mpr fun l hl ↦ decide_eq_true ?_
  obtain ⟨⟨i, hi⟩, hlowest⟩ := mem_occupied.mp hl
  exact lt_numRanks_of_mem_rank ((hlowest i).mp hi).1

/-! ## Nodes -/

/-- The node of a level is made of the levels below it. -/
theorem rankNodes_occupied : g.rankNodes g.occupied =
    g.occupied.map fun l ↦ g.rankNode l (g.occupied.filter fun m ↦ m.1 < l.1) := by
  calc g.rankNodes g.occupied
    _ = (g.rankNodes g.occupied).map fun n ↦
          g.rankNode (n.rank, n.states) (g.occupied.filter fun m ↦ m.1 < n.rank) :=
        (List.map_id _).symm.trans (List.map_congr_left fun _ hn ↦ eq_rankNode_of_mem hn)
    _ = ((g.rankNodes g.occupied).map fun n ↦ (n.rank, n.states)).map fun l ↦
          g.rankNode l (g.occupied.filter fun m ↦ m.1 < l.1) := by
        rw [List.map_map]
        rfl
    _ = g.occupied.map fun l ↦ g.rankNode l (g.occupied.filter fun m ↦ m.1 < l.1) := by
        rw [map_rankNodes]

theorem mapM_checkedRankNode :
    g.occupied.mapM g.checkedRankNode = .ok (g.rankNodes g.occupied) := by
  rw [rankNodes_occupied]
  refine mapM_eq_ok fun l hl ↦ ?_
  obtain ⟨⟨i, hi⟩, hlowest⟩ := mem_occupied.mp hl
  have hlt := lt_numRanks_of_mem_rank ((hlowest i).mp hi).1
  rw [checkedRankNode, checkedOccupied_eq (Nat.le_of_lt hlt)]
  rfl

end Game

/-! ## Edges -/

namespace Ranking

variable {g : Game sp} {ranking : Ranking sp}

/-- The number of a node leads back to its rank. -/
theorem checkedRank_nodeId (hr : g.ranking? = some ranking) {n : RankNode sp}
    (hn : n ∈ ranking.nodes) :
    ∃ id, ranking.nodeId? n.rank = some id ∧ ranking.checkedRank id = .ok n.rank := by
  obtain ⟨k, hk⟩ := List.getElem?_of_mem hn
  refine ⟨k + 1, (nodeId?_eq_some_iff hr).mpr ⟨Nat.succ_pos k, n, hk, rfl⟩, lookup_eq_ok ?_⟩
  rw [List.getElem?_cons_succ, List.getElem?_map, hk, Option.map_some]

theorem checkedEnds_eq (hr : g.ranking? = some ranking) :
    ranking.checkedEnds = .ok (ranking.nodes.map fun n ↦ n.targets.map fun r ↦ (n.rank, r)) := by
  refine mapM_eq_ok fun n hn ↦ mapM_eq_ok fun r hmem ↦ ?_
  obtain ⟨m, hm, rfl, -⟩ := (mem_targets_iff hr hn).mp hmem
  obtain ⟨source, hsource, hfrom⟩ := checkedRank_nodeId hr hn
  obtain ⟨target, htarget, hto⟩ := checkedRank_nodeId hr hm
  rw [hsource, htarget, found, ok_bind, found, ok_bind, hfrom, ok_bind, hto]
  rfl

end Ranking

/-- **The ranking graph is made in range.** -/
theorem Game.checkedRanking?_eq (g : Game sp) : g.checkedRanking? = .ok g.ranking? := by
  have hranking : g.ranking? = g.ranking? := rfl
  rw [checkedRanking?, checkedOccupied_eq (Nat.le_refl _), ok_bind, filter_occupied]
  conv_rhs at hranking => rw [ranking?]
  dsimp only at hranking ⊢
  split at hranking <;> rename_i hentries
  · rw [if_pos hentries, hranking]
    rfl
  · rw [if_neg hentries, mapM_checkedRankNode, ok_bind, Ranking.checkedEnds_eq hranking, ok_bind,
      hranking]
    rfl

end JusticeViolation

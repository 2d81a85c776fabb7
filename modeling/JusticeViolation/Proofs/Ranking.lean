import JusticeViolation.Decomposition
import JusticeViolation.Proofs.Game.Solution
import JusticeViolation.Proofs.Ranking.Levels

/-!
# The ranking graph of a game of good shape

Where each rank holds the ranks below it, the level of a rank is what it holds beyond the one before
it. The nodes of the ranking graph are the levels that are not empty, and the ranks that a node
leads to lie below it: all of these that a step out of its level can reach are among them.
-/

namespace JusticeViolation

namespace Game

variable {sp : Space} {g : Game sp}

/-! ## Levels -/

/-- What a rank holds beyond the ranks below it. -/
def level (g : Game sp) (r : Nat) : StateSet sp := g.rank r \ g.below r

theorem mem_level {r i : Nat} : i ∈ g.level r ↔ i ∈ g.rank r ∧ i ∉ g.below r := StateSet.mem_sdiff

theorem OfStates.untagged_level (h : g.OfStates) (r : Nat) : (g.level r).Untagged g.marker :=
  (h.untagged_rank r).sdiff (h.untagged_below r)

namespace Shaped

variable (h : g.Shaped)

include h

/-- What lies in a lower rank lies below. -/
theorem mem_below_of_mem_rank {q r i : Nat} (hqr : q < r) (hr : r < g.numRanks)
    (hi : i ∈ g.rank q) : i ∈ g.below r := by
  cases r with
  | zero => exact absurd hqr (Nat.not_lt_zero q)
  | succ r => exact h.rank_mono (Nat.lt_succ_iff.mp hqr) (Nat.lt_of_succ_lt hr) hi

/-- The level of a rank holds the states whose lowest rank it is. -/
theorem mem_level_iff_lowest {r i : Nat} : i ∈ g.level r ↔ g.Lowest r i := by
  rw [mem_level, Lowest]
  refine and_congr_right fun hi ↦ ⟨fun hb q hq hiq ↦ ?_, fun hno hb ↦ ?_⟩
  · exact hb (h.mem_below_of_mem_rank hq (lt_numRanks_of_mem_rank hi) hiq)
  · cases r with
    | zero => exact StateSet.not_mem_empty i hb
    | succ r => exact hno r (Nat.lt_succ_self r) hb

theorem level_disjoint {q r i : Nat} (hq : i ∈ g.level q) (hr : i ∈ g.level r) : q = r :=
  (h.mem_level_iff_lowest.mp hq).unique (h.mem_level_iff_lowest.mp hr)

omit h in
/-- Every state of a rank is in the level of a rank that is not higher. -/
theorem exists_level {r i : Nat} (hi : i ∈ g.rank r) : ∃ q, q ≤ r ∧ i ∈ g.level q := by
  induction r with
  | zero => exact ⟨0, Nat.le_refl 0, mem_level.mpr ⟨hi, StateSet.not_mem_empty i⟩⟩
  | succ r ih =>
    by_cases hb : i ∈ g.rank r
    · obtain ⟨q, hq, hiq⟩ := ih hb
      exact ⟨q, Nat.le_succ_of_le hq, hiq⟩
    · exact ⟨r + 1, Nat.le_refl _, mem_level.mpr ⟨hi, hb⟩⟩

omit h in
theorem exists_level_of_mem_below {r i : Nat} (hi : i ∈ g.below r) :
    ∃ q, q < r ∧ i ∈ g.level q := by
  cases r with
  | zero => exact absurd hi (StateSet.not_mem_empty i)
  | succ r =>
    obtain ⟨q, hq, hiq⟩ := exists_level hi
    exact ⟨q, Nat.lt_succ_of_le hq, hiq⟩

theorem mem_below_of_mem_level {q r i : Nat} (hqr : q < r) (hr : r < g.numRanks)
    (hi : i ∈ g.level q) : i ∈ g.below r :=
  h.mem_below_of_mem_rank hqr hr (mem_level.mp hi).1

end Shaped

end Game

namespace Ranking

open Game

variable {sp : Space} {g : Game sp} {ranking : Ranking sp}

section Nodes

variable (h : g.Shaped) (hr : g.ranking? = some ranking)

include h hr

theorem states_eq {n : RankNode sp} (hn : n ∈ ranking.nodes) : n.states = g.level n.rank :=
  StateSet.ext_mem fun _ ↦ (mem_states_iff hr hn).trans h.mem_level_iff_lowest.symm

/-- Every rank with a state of its own has a node. -/
theorem exists_node {r i : Nat} (hi : i ∈ g.level r) : ∃ n ∈ ranking.nodes, n.rank = r :=
  exists_node_of_lowest hr (h.mem_level_iff_lowest.mp hi)

/-! ## What a rank leads to -/

omit h in
theorem mem_lower {n : RankNode sp} {i : Nat} :
    i ∈ Decomposition.lower ranking n ↔ ∃ m ∈ ranking.nodes, m.rank ∈ n.targets ∧ i ∈ m.states := by
  rw [Decomposition.lower, StateSet.mem_unionAll]
  constructor
  · rintro ⟨s, hs, hi⟩
    obtain ⟨m, hm, rfl⟩ := List.mem_map.mp hs
    obtain ⟨r, hrt, hrm⟩ := List.mem_filterMap.mp hm
    obtain ⟨hmem, hrank⟩ := mem_of_node?_eq_some hrm
    exact ⟨m, hmem, hrank ▸ hrt, hi⟩
  · rintro ⟨m, hm, hmt, hi⟩
    have hfm : m ∈ n.targets.filterMap ranking.node? :=
      List.mem_filterMap.mpr ⟨m.rank, hmt, node?_eq_some hr hm⟩
    exact ⟨m.states, List.mem_map.mpr ⟨m, hfm, rfl⟩, hi⟩

/-- A rank leads to lower ranks only. -/
theorem lower_subset {n : RankNode sp} (hn : n ∈ ranking.nodes) {i : Nat}
    (hi : i ∈ Decomposition.lower ranking n) : i ∈ g.below n.rank := by
  obtain ⟨m, hm, hmt, him⟩ := (mem_lower hr).mp hi
  obtain ⟨-, -, -, hlt, -⟩ := (mem_targets_iff hr hn).mp hmt
  rw [states_eq h hr hm] at him
  exact h.mem_below_of_mem_level hlt (rank_lt_numRanks hr hn) him

/-- **No lower rank that a step can reach is left out.** -/
theorem next_mem_lower {n : RankNode sp} (hn : n ∈ ranking.nodes) {v : Nat} (hv : v ∈ n.states)
    (ht : v ∈ g.trans) (hb : sp.next v ∈ g.below n.rank) :
    sp.next v ∈ Decomposition.lower ranking n := by
  obtain ⟨q, hq, hvq⟩ := Shaped.exists_level_of_mem_below hb
  obtain ⟨m, hm, rfl⟩ := exists_node h hr hvq
  rw [← states_eq h hr hm] at hvq
  have hreach : g.Reachable n.states (ranking.statesUpTo n.rank) (sp.next v) :=
    .round (.start hv (mem_statesUpTo.mpr ⟨n, hn, Nat.le_refl _, hv⟩)) ht
      (mem_statesUpTo.mpr ⟨m, hm, Nat.le_of_lt hq, hvq⟩) (sp.now_next v).symm
  have htarget := (mem_targets_iff hr hn).mpr ⟨m, hm, rfl, hq, _, hvq, hreach⟩
  exact (mem_lower hr).mpr ⟨m, hm, htarget, hvq⟩

theorem untagged_lower (ho : g.OfStates) (n : RankNode sp) :
    (Decomposition.lower ranking n).Untagged g.marker := by
  refine StateSet.DependsOn.unionAll fun s hs ↦ ?_
  obtain ⟨m, hm, rfl⟩ := List.mem_map.mp hs
  obtain ⟨r, -, hrm⟩ := List.mem_filterMap.mp hm
  rw [states_eq h hr (mem_of_node?_eq_some hrm).1]
  exact ho.untagged_level m.rank

/-! ## Where the game starts -/

theorem mem_entries_of_initial {r i : Nat} (hi : i ∈ g.initial) (hl : i ∈ g.level r) :
    r ∈ ranking.entries := by
  obtain ⟨m, hm, rfl⟩ := exists_node h hr hl
  rw [← states_eq h hr hm] at hl
  have hreach : g.Reachable g.initial .univ i :=
    .start hi (StateSet.mem_univ.mpr (StateSet.lt_size hi))
  exact (mem_entries_iff hr).mpr ⟨m, hm, rfl, i, hl, hreach⟩

end Nodes

/-- An initial state in some rank makes for a ranking graph. -/
theorem exists_of_initial {r i : Nat} (hi : i ∈ g.initial) (hl : i ∈ g.level r) :
    ∃ ranking, g.ranking? = some ranking := by
  by_contra hno
  rw [← Option.isSome_iff_exists, Option.not_isSome_iff_eq_none, ranking?_eq_none_iff] at hno
  have hreach : g.Reachable g.initial .univ i :=
    .start hi (StateSet.mem_univ.mpr (StateSet.lt_size hi))
  exact hno i hreach r (mem_level.mp hl).1

end Ranking

end JusticeViolation

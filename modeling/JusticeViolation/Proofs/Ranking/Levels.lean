import JusticeViolation.Ranking
import JusticeViolation.Proofs.Game.Shape
import JusticeViolation.Proofs.StateSet.Closure

/-!
# The nodes of the ranking graph

Ranks may overlap in any way. A state belongs to the level of the *lowest* rank that holds it, so
levels are disjoint and hold together what the ranks hold. The nodes of the ranking graph are the
levels that are not empty, from the highest down; each leads to the lower ones that rounds through
it and the nodes below it can reach.

Nothing here asks that ranks grow, nor on what they depend.
-/

namespace JusticeViolation

/-! ## Increments -/

namespace StateSet

variable {sp : Space}

theorem length_increments (lower : StateSet sp) (ss : List (StateSet sp)) :
    (increments lower ss).length = ss.length := by
  induction ss generalizing lower with
  | nil => rfl
  | cons s ss ih => rw [increments, List.length_cons, ih, List.length_cons]

theorem mem_getD_increments {lower : StateSet sp} {ss : List (StateSet sp)} {k i : Nat} :
    i ∈ (increments lower ss).getD k ∅ ↔
      i ∈ ss.getD k ∅ ∧ i ∉ lower ∧ ∀ j, j < k → i ∉ ss.getD j ∅ := by
  induction ss generalizing lower k with
  | nil =>
    rw [increments, List.getD_nil]
    exact iff_of_false (not_mem_empty i) fun h ↦ not_mem_empty i h.1
  | cons s ss ih =>
    rw [increments]
    cases k with
    | zero =>
      rw [List.getD_cons_zero, List.getD_cons_zero, mem_sdiff]
      refine and_congr_right fun _ ↦ (and_iff_left fun j hj ↦ ?_).symm
      exact absurd hj (Nat.not_lt_zero j)
    | succ k =>
      rw [List.getD_cons_succ, List.getD_cons_succ, ih, mem_union, not_or]
      refine and_congr_right fun _ ↦ ?_
      constructor
      · rintro ⟨⟨hl, hs0⟩, hj⟩
        refine ⟨hl, fun j hjk ↦ ?_⟩
        cases j with
        | zero => rwa [List.getD_cons_zero]
        | succ j =>
          rw [List.getD_cons_succ]
          exact hj j (Nat.lt_of_succ_lt_succ hjk)
      · rintro ⟨hl, hj⟩
        refine ⟨⟨hl, ?_⟩, fun j hjk ↦ ?_⟩
        · have h0 := hj 0 (Nat.succ_pos k)
          rwa [List.getD_cons_zero] at h0
        · have hj' := hj (j + 1) (Nat.succ_lt_succ hjk)
          rwa [List.getD_cons_succ] at hj'

end StateSet

namespace Game

variable {sp : Space} {g : Game sp}

/-! ## The lowest rank of a state -/

theorem lt_numRanks_of_mem_rank {r i : Nat} (hi : i ∈ g.rank r) : r < g.numRanks := by
  by_contra hr
  rw [rank, List.getD_eq_default _ _ (Nat.not_lt.mp hr)] at hi
  exact StateSet.not_mem_empty i hi

/-- Some rank holds what one of the ranks holds. -/
theorem exists_mem_rank_iff {i : Nat} : (∃ r, i ∈ g.rank r) ↔ ∃ s ∈ g.ranks, i ∈ s := by
  constructor
  · rintro ⟨r, hi⟩
    have hr : r < g.ranks.length := lt_numRanks_of_mem_rank hi
    rw [rank, List.getD_eq_getElem _ _ hr] at hi
    exact ⟨g.ranks[r], List.getElem_mem hr, hi⟩
  · rintro ⟨s, hs, hi⟩
    obtain ⟨r, hr, rfl⟩ := List.mem_iff_getElem.mp hs
    exact ⟨r, by rwa [rank, List.getD_eq_getElem _ _ hr]⟩

/-- The rank `r` is the lowest one that holds `i`. -/
def Lowest (g : Game sp) (r i : Nat) : Prop := i ∈ g.rank r ∧ ∀ q, q < r → i ∉ g.rank q

theorem Lowest.unique {q r i : Nat} (hq : g.Lowest q i) (hr : g.Lowest r i) : q = r := by
  rcases Nat.lt_trichotomy q r with hlt | heq | hgt
  · exact absurd hq.1 (hr.2 q hlt)
  · exact heq
  · exact absurd hr.1 (hq.2 r hgt)

theorem exists_lowest {r i : Nat} (hi : i ∈ g.rank r) : ∃ q, q ≤ r ∧ g.Lowest q i := by
  have hex : ∃ q, i ∈ g.rank q := ⟨r, hi⟩
  exact ⟨Nat.find hex, Nat.find_min' hex hi, Nat.find_spec hex, fun q hq ↦ Nat.find_min hex hq⟩

theorem length_levels : g.levels.length = g.numRanks := StateSet.length_increments _ _

theorem mem_levels {r i : Nat} : i ∈ g.levels.getD r ∅ ↔ g.Lowest r i := by
  rw [levels, StateSet.mem_getD_increments, and_iff_right (StateSet.not_mem_empty i)]
  rfl

/-- The occupied ranks are those that are the lowest one of some state. -/
theorem mem_occupied {l : Nat × StateSet sp} :
    l ∈ g.occupied ↔ (∃ i, i ∈ l.2) ∧ ∀ i, i ∈ l.2 ↔ g.Lowest l.1 i := by
  rw [occupied, List.mem_filter, List.mem_reverse, List.mem_map, Bool.not_eq_true',
    StateSet.isEmpty_eq_false_iff, and_comm]
  refine and_congr_right fun ⟨i, hi⟩ ↦ ?_
  constructor
  · rintro ⟨⟨s, r⟩, hsr, rfl⟩ j
    have hlevel : g.levels[r]? = some s := List.mem_zipIdx_iff_getElem?.mp hsr
    rw [← mem_levels, List.getD_eq_getElem?_getD, hlevel, Option.getD_some]
  · intro hl
    have hlt : l.1 < g.levels.length :=
      length_levels ▸ lt_numRanks_of_mem_rank ((hl i).mp hi).1
    refine ⟨(l.2, l.1), List.mem_zipIdx_iff_getElem?.mpr ?_, rfl⟩
    rw [List.getElem?_eq_getElem hlt, Option.some.injEq]
    refine StateSet.ext_mem fun j ↦ ?_
    rw [hl, ← mem_levels, List.getD_eq_getElem _ _ hlt]

theorem pairwise_occupied : g.occupied.Pairwise fun l m ↦ m.1 < l.1 := by
  refine List.Pairwise.filter _ (List.pairwise_reverse.mpr ?_)
  rw [List.pairwise_map]
  have hrange : (g.levels.zipIdx.map Prod.snd).Pairwise (· < ·) := by
    rw [List.zipIdx_map_snd]
    exact List.pairwise_lt_range'
  exact List.pairwise_map.mp hrange

/-! ## Reachable states -/

/-- Rounds of the game lead from `states` to `i` without leaving `within`. -/
inductive Reachable (g : Game sp) (states within : StateSet sp) : Nat → Prop
  | start {i : Nat} : i ∈ states → i ∈ within → Reachable g states within i
  | round {v i : Nat} : Reachable g states within v → v ∈ g.trans → i ∈ within →
      sp.next v = sp.now i → Reachable g states within i

theorem Reachable.mem_within {states within : StateSet sp} {i : Nat}
    (h : g.Reachable states within i) : i ∈ within := by
  cases h <;> assumption

theorem mem_reachable_of_mem {states within : StateSet sp} {i : Nat} (hs : i ∈ states)
    (hw : i ∈ within) : i ∈ g.reachable states within :=
  StateSet.subset_closure (StateSet.mem_inter.mpr ⟨hs, hw⟩)

/-- **The closure holds what is reachable**, and nothing else. -/
theorem mem_reachable {states within : StateSet sp} {i : Nat} :
    i ∈ g.reachable states within ↔ g.Reachable states within i := by
  constructor
  · refine StateSet.closure_induction (P := fun s ↦ ∀ i ∈ s, g.Reachable states within i)
      (fun s hs i hi ↦ ?_) (fun i hi ↦ ?_) i
    · rcases StateSet.mem_union.mp hi with hi | hi
      · exact hs i hi
      · obtain ⟨hsucc, hw⟩ := StateSet.mem_inter.mp hi
        obtain ⟨-, v, hv, ht, hnext⟩ := StateSet.mem_succ.mp hsucc
        exact .round (hs v hv) ht hw hnext
    · obtain ⟨hs, hw⟩ := StateSet.mem_inter.mp hi
      exact .start hs hw
  · intro hi
    induction hi with
    | start hs hw => exact mem_reachable_of_mem hs hw
    | round _ ht hw hnext ih =>
      refine StateSet.step_closure_subset (StateSet.mem_inter.mpr ⟨?_, hw⟩)
      exact StateSet.mem_succ.mpr ⟨StateSet.lt_size hw, _, ih, ht, hnext⟩

/-! ## Nodes and what is behind them -/

theorem map_rankNodes (ls : List (Nat × StateSet sp)) :
    (g.rankNodes ls).map (fun n ↦ (n.rank, n.states)) = ls := by
  induction ls with
  | nil => rfl
  | cons l ls ih => rw [rankNodes, List.map_cons, ih, rankNode]

/-- A node is made of a level and the levels behind it. -/
theorem mem_rankNodes {ls : List (Nat × StateSet sp)} {n : RankNode sp}
    (hn : n ∈ g.rankNodes ls) :
    ∃ front l behind, ls = front ++ l :: behind ∧ n = g.rankNode l behind := by
  induction ls with
  | nil => exact absurd hn List.not_mem_nil
  | cons l ls ih =>
    rcases List.mem_cons.mp hn with rfl | hn
    · exact ⟨[], l, ls, rfl, rfl⟩
    · obtain ⟨front, m, behind, hls, rfl⟩ := ih hn
      exact ⟨l :: front, m, behind, by rw [hls, List.cons_append], rfl⟩

/-- Behind a node are the levels below it. -/
theorem eq_rankNode_of_mem {n : RankNode sp} (hn : n ∈ g.rankNodes g.occupied) :
    n = g.rankNode (n.rank, n.states) (g.occupied.filter fun l ↦ l.1 < n.rank) := by
  obtain ⟨front, l, behind, hocc, hnl⟩ := mem_rankNodes hn
  have hl : l = (n.rank, n.states) := by rw [hnl, rankNode]
  have hpw := g.pairwise_occupied
  rw [hocc, List.pairwise_append, List.pairwise_cons] at hpw
  obtain ⟨-, ⟨hbehind, -⟩, hfront⟩ := hpw
  have hbelow : g.occupied.filter (fun m ↦ m.1 < l.1) = behind := by
    have hnone : front.filter (fun m ↦ m.1 < l.1) = [] := List.filter_eq_nil_iff.mpr fun m hm hlt ↦
      absurd (of_decide_eq_true hlt) (Nat.lt_asymm (hfront m hm l List.mem_cons_self))
    rw [hocc, List.filter_append, hnone, List.nil_append, List.filter_cons_of_neg (by simp),
      List.filter_eq_self]
    exact fun m hm ↦ decide_eq_true (hbehind m hm)
  rw [hl] at hnl hbelow
  rw [hbelow]
  exact hnl

end Game

namespace Ranking

open Game

variable {sp : Space} {g : Game sp} {ranking : Ranking sp}

/-- The states of the nodes up to a rank. -/
def statesUpTo (ranking : Ranking sp) (r : Nat) : StateSet sp :=
  .unionAll ((ranking.nodes.filter fun n ↦ n.rank ≤ r).map (·.states))

theorem mem_statesUpTo {r i : Nat} :
    i ∈ ranking.statesUpTo r ↔ ∃ n ∈ ranking.nodes, n.rank ≤ r ∧ i ∈ n.states := by
  rw [statesUpTo, StateSet.mem_unionAll]
  simp only [List.mem_map, List.mem_filter, decide_eq_true_eq, exists_exists_and_eq_and]
  simp only [and_assoc]

theorem mem_of_node?_eq_some {r : Nat} {n : RankNode sp} (hn : ranking.node? r = some n) :
    n ∈ ranking.nodes ∧ n.rank = r :=
  ⟨List.mem_of_find?_eq_some hn,
    beq_iff_eq.mp (List.find?_some (p := fun n : RankNode sp ↦ n.rank == r) hn)⟩

/-- **There is no ranking graph** if and only if no state of a rank can be reached. -/
theorem ranking?_eq_none_iff :
    g.ranking? = none ↔ ∀ i, g.Reachable g.initial .univ i → ∀ r, i ∉ g.rank r := by
  have hempty : g.ranking? = none ↔
      ∀ l ∈ g.occupied, ¬∃ i, i ∈ l.2 ∧ i ∈ g.reachable g.initial .univ := by
    unfold Game.ranking?
    dsimp only
    rw [List.isEmpty_map, ite_eq_left_iff, List.isEmpty_iff, List.filter_eq_nil_iff]
    simp only [StateSet.meets_iff, reduceCtorEq, imp_false, not_not]
  rw [hempty]
  constructor
  · intro hno i hi r hr
    obtain ⟨q, -, hq⟩ := exists_lowest hr
    have hlevel : ∀ j, j ∈ g.levels.getD q ∅ ↔ g.Lowest q j := fun _ ↦ mem_levels
    exact hno (q, g.levels.getD q ∅) (mem_occupied.mpr ⟨⟨i, (hlevel i).mpr hq⟩, hlevel⟩)
      ⟨i, (hlevel i).mpr hq, mem_reachable.mpr hi⟩
  · rintro hno l hl ⟨i, hi, hreach⟩
    exact hno i (mem_reachable.mp hreach) l.1 (((mem_occupied.mp hl).2 i).mp hi).1

section Nodes

variable (hr : g.ranking? = some ranking)

include hr

private theorem of_ranking? :
    ranking.numRanks = g.numRanks ∧ ranking.nodes = g.rankNodes g.occupied ∧
      ranking.entries
        = (g.occupied.filter fun l ↦ l.2.meets (g.reachable g.initial .univ)).map (·.1) := by
  unfold Game.ranking? at hr
  dsimp only at hr
  split at hr
  · simp at hr
  · rw [Option.some.injEq] at hr
    subst hr
    exact ⟨rfl, rfl, rfl⟩

theorem numRanks_eq : ranking.numRanks = g.numRanks := (of_ranking? hr).1

private theorem map_nodes : ranking.nodes.map (fun n ↦ (n.rank, n.states)) = g.occupied := by
  rw [(of_ranking? hr).2.1, map_rankNodes]

private theorem mem_occupied_of_mem {n : RankNode sp} (hn : n ∈ ranking.nodes) :
    (n.rank, n.states) ∈ g.occupied := map_nodes hr ▸ List.mem_map.mpr ⟨n, hn, rfl⟩

private theorem exists_mem_occupied_iff {p : Nat × StateSet sp → Prop} :
    (∃ l ∈ g.occupied, p l) ↔ ∃ n ∈ ranking.nodes, p (n.rank, n.states) := by
  rw [← map_nodes hr]
  simp only [List.mem_map, exists_exists_and_eq_and]

/-! ## The nodes -/

/-- A node holds a state. -/
theorem exists_mem_states {n : RankNode sp} (hn : n ∈ ranking.nodes) : ∃ i, i ∈ n.states :=
  (mem_occupied.mp (mem_occupied_of_mem hr hn)).1

/-- **A node holds the states whose lowest rank it is.** -/
theorem mem_states_iff {n : RankNode sp} (hn : n ∈ ranking.nodes) {i : Nat} :
    i ∈ n.states ↔ g.Lowest n.rank i := (mem_occupied.mp (mem_occupied_of_mem hr hn)).2 i

/-- The lowest rank of a state has a node. -/
theorem exists_node_of_lowest {r i : Nat} (hi : g.Lowest r i) :
    ∃ n ∈ ranking.nodes, n.rank = r := by
  have hlevel : ∀ j, j ∈ g.levels.getD r ∅ ↔ g.Lowest r j := fun _ ↦ mem_levels
  exact (exists_mem_occupied_iff (p := fun l ↦ l.1 = r) hr).mp
    ⟨(r, _), mem_occupied.mpr ⟨⟨i, (hlevel i).mpr hi⟩, hlevel⟩, rfl⟩

/-- The nodes come from the highest rank down. -/
theorem pairwise_nodes : ranking.nodes.Pairwise fun n m ↦ m.rank < n.rank := by
  have hp := g.pairwise_occupied
  rwa [← map_nodes hr, List.pairwise_map] at hp

theorem nodup_ranks : (ranking.nodes.map (·.rank)).Nodup := by
  rw [List.Nodup, List.pairwise_map]
  exact (pairwise_nodes hr).imp fun hlt ↦ (Nat.ne_of_lt hlt).symm

theorem eq_of_rank_eq {n m : RankNode sp} (hn : n ∈ ranking.nodes) (hm : m ∈ ranking.nodes)
    (hnm : n.rank = m.rank) : n = m := List.inj_on_of_nodup_map (nodup_ranks hr) hn hm hnm

theorem rank_lt_numRanks {n : RankNode sp} (hn : n ∈ ranking.nodes) : n.rank < g.numRanks := by
  obtain ⟨i, hi⟩ := exists_mem_states hr hn
  exact lt_numRanks_of_mem_rank ((mem_states_iff hr hn).mp hi).1

theorem node?_eq_some {n : RankNode sp} (hn : n ∈ ranking.nodes) :
    ranking.node? n.rank = some n := by
  cases hf : ranking.node? n.rank with
  | none =>
    rw [node?, List.find?_eq_none] at hf
    exact absurd (beq_self_eq_true n.rank) (hf n hn)
  | some m =>
    obtain ⟨hm, hrank⟩ := mem_of_node?_eq_some hf
    rw [eq_of_rank_eq hr hm hn hrank]

/-! ## What the marker and the nodes lead to -/

theorem mem_entries_iff {r : Nat} :
    r ∈ ranking.entries ↔
      ∃ m ∈ ranking.nodes, m.rank = r ∧ ∃ i ∈ m.states, g.Reachable g.initial .univ i := by
  rw [(of_ranking? hr).2.2, List.mem_map]
  simp only [List.mem_filter, StateSet.meets_iff, mem_reachable, and_assoc]
  rw [exists_mem_occupied_iff hr]
  exact exists_congr fun m ↦ and_congr_right fun _ ↦ and_comm

theorem pairwise_entries : ranking.entries.Pairwise (· > ·) := by
  rw [(of_ranking? hr).2.2, List.pairwise_map]
  exact g.pairwise_occupied.filter _

private theorem targets_eq {n : RankNode sp} (hn : n ∈ ranking.nodes) :
    n.targets = ((g.occupied.filter fun l ↦ l.1 < n.rank).filter fun l ↦
      l.2.meets (g.reachable n.states (ranking.statesUpTo n.rank))).map (·.1) := by
  have heq := eq_rankNode_of_mem ((of_ranking? hr).2.1 ▸ hn)
  have hwithin : StateSet.unionAll
      (((n.rank, n.states) :: g.occupied.filter fun l ↦ l.1 < n.rank).map (·.2))
        = ranking.statesUpTo n.rank := by
    refine StateSet.ext_mem fun i ↦ ?_
    rw [mem_statesUpTo, StateSet.mem_unionAll]
    simp only [List.map_cons, List.mem_cons, List.mem_map, List.mem_filter, decide_eq_true_eq,
      or_and_right, exists_or, exists_eq_left, exists_exists_and_eq_and]
    simp only [and_assoc]
    rw [exists_mem_occupied_iff (p := fun l ↦ l.1 < n.rank ∧ i ∈ l.2) hr]
    constructor
    · rintro (hi | ⟨m, hm, hlt, hi⟩)
      · exact ⟨n, hn, Nat.le_refl _, hi⟩
      · exact ⟨m, hm, Nat.le_of_lt hlt, hi⟩
    · rintro ⟨m, hm, hle, hi⟩
      rcases Nat.lt_or_eq_of_le hle with hlt | hrank
      · exact Or.inr ⟨m, hm, hlt, hi⟩
      · exact Or.inl (eq_of_rank_eq hr hm hn hrank ▸ hi)
  rw [← hwithin]
  exact congrArg RankNode.targets heq

/-- **A node leads to the lower ones it can reach** without passing through a higher one. -/
theorem mem_targets_iff {n : RankNode sp} (hn : n ∈ ranking.nodes) {r : Nat} :
    r ∈ n.targets ↔ ∃ m ∈ ranking.nodes, m.rank = r ∧ r < n.rank ∧
      ∃ i ∈ m.states, g.Reachable n.states (ranking.statesUpTo n.rank) i := by
  rw [targets_eq hr hn, List.mem_map]
  simp only [List.mem_filter, decide_eq_true_eq, StateSet.meets_iff, mem_reachable, and_assoc]
  rw [exists_mem_occupied_iff hr]
  refine exists_congr fun m ↦ and_congr_right fun _ ↦ ?_
  constructor
  · rintro ⟨hlt, hreach, rfl⟩
    exact ⟨rfl, hlt, hreach⟩
  · rintro ⟨rfl, hlt, hreach⟩
    exact ⟨hlt, hreach, rfl⟩

theorem pairwise_targets {n : RankNode sp} (hn : n ∈ ranking.nodes) :
    n.targets.Pairwise (· > ·) := by
  rw [targets_eq hr hn, List.pairwise_map]
  exact (g.pairwise_occupied.filter _).filter _

end Nodes

end Ranking

end JusticeViolation

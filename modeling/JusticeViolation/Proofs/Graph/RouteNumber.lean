import JusticeViolation.Proofs.Graph.Contraction
import Mathlib.Data.ENat.Lattice
import Mathlib.Data.List.Permutation
import Mathlib.Data.Set.Card

/-!
# The number of paths is exact

The number of paths is the cardinality of the set of routes, cut off at 2. As every edge is listed
once, the nodes that a path leads through tell its edges. The routes are finitely many where no
circle can be reached: a route does not come to a node twice then, so it puts some of the nodes that
are reached in one of their orders. With a circle on the way, there are routes that go round it and
routes that do not, and the number of paths is 2, although the count never comes to the nodes in
question.
-/

namespace JusticeViolation

/-- What is counted is a cardinality, cut off at 2. -/
theorem Counts.eq_min_encard {P : List Nat → Prop} {n : Nat} (h : Counts P n) :
    (n : ℕ∞) = min {l | P l}.encard 2 := by
  have hpos : 0 < n ↔ {l | P l}.encard ≠ 0 := by
    rw [Set.encard_ne_zero]
    exact h.pos_iff
  have hone : n ≤ 1 ↔ {l | P l}.encard ≤ 1 := by
    rw [Set.encard_le_one_iff]
    exact h.le_one_iff.trans ⟨fun h l l' hl hl' ↦ h l l' hl hl', fun h l l' hl hl' ↦ h l l' hl hl'⟩
  have htwo := h.le_two
  obtain rfl | rfl | rfl : n = 0 ∨ n = 1 ∨ n = 2 := by omega
  · have hzero : {l | P l}.encard = 0 := not_not.mp (mt hpos.mpr (Nat.lt_irrefl 0))
    rw [hzero]
    rfl
  · have hge := Order.one_le_iff_ne_zero.mpr (hpos.mp Nat.one_pos)
    rw [le_antisymm (hone.mp le_rfl) hge]
    rfl
  · have hlt : 1 < {l | P l}.encard := not_le.mp (mt hone.mpr (by decide))
    exact (min_eq_right (Order.add_one_le_of_lt hlt)).symm

namespace Graph

variable {sp : Space} {graph : Graph sp} {a b : Nat}

/-! ## Where no circle can be reached -/

/-- Such a route comes to no node twice. -/
theorem Route.nodup {l : List Nat}
    (hfree : ∀ c, graph.Reaches a c → ¬Relation.TransGen graph.Joins c c)
    (h : graph.Route a b l) : (b :: l).Nodup := by
  induction h with
  | here => exact List.nodup_singleton a
  | @step b c l hl hbc ih =>
    refine List.nodup_cons.mpr ⟨fun hc ↦ ?_, ih⟩
    have hcb : graph.Reaches c b := by
      rcases List.mem_cons.mp hc with rfl | hc
      · exact .refl
      · exact (hl.reaches_of_mem hc).2
    exact hfree c (hl.reaches.tail hbc) (.trans_right hcb (.single hbc))

theorem finite_setOf_route (hfree : ∀ c, graph.Reaches a c → ¬Relation.TransGen graph.Joins c c)
    (b : Nat) : {l | graph.Route a b l}.Finite := by
  refine (List.finite_toSet ((graph.reachedFrom a).sublists.flatMap List.permutations)).subset
    fun l hl ↦ ?_
  obtain ⟨l', hperm, hsub⟩ := List.subperm_of_subset (List.nodup_cons.mp (hl.nodup hfree)).2
    fun k hk ↦ mem_reachedFrom.mpr (hl.reaches_of_mem hk).1
  exact List.mem_flatMap.mpr
    ⟨l', List.mem_sublists.mpr hsub, List.mem_permutations.mpr hperm.symm⟩

/-! ## The number of paths -/

/-- Also with a circle on the way, it is routes that are counted. -/
theorem pathCount_eq_min_encard (hs : graph.Sorted) (a b : Nat) :
    (graph.pathCount a b : ℕ∞) = min {l | graph.Route a b l}.encard 2 := by
  refine Counts.eq_min_encard ?_
  by_cases hcircle : graph.CircleBetween a b
  · obtain ⟨l, l', hl, hl', hne⟩ := hcircle.exists_ne
    rw [hcircle.pathCount_eq hs]
    exact {
      pos_iff := iff_of_true Nat.two_pos ⟨l, hl⟩
      le_one_iff := iff_of_false (by decide) fun hone ↦ hne (hone l l' hl hl')
      le_two := le_rfl }
  · exact counts_pathCount hs hcircle

/-- **The number of paths is exact.** It is the number of routes from one node to another, where 2
stands for any larger number. If no node that can be reached lies on a circle, the routes are
finitely many, and none comes to a node twice. If a circle can be reached from the one node, and the
other lies on it or behind it, the number is 2. -/
theorem pathCount_exact (hs : graph.Sorted) (a b : Nat) :
    (graph.pathCount a b : ℕ∞) = min {l | graph.Route a b l}.encard 2 ∧
    ((∀ c, graph.Reaches a c → ¬Relation.TransGen graph.Joins c c) →
      {l | graph.Route a b l}.Finite ∧
      graph.pathCount a b = min {l | graph.Route a b l}.ncard 2 ∧
      ∀ l, graph.Route a b l → (b :: l).Nodup) ∧
    ∀ c, graph.Reaches a c → Relation.TransGen graph.Joins c c → graph.Reaches c b →
      graph.pathCount a b = 2 := by
  have hcard := pathCount_eq_min_encard hs a b
  refine ⟨hcard, fun hfree ↦ ?_, fun c hac hcc hcb ↦ ?_⟩
  · have hfinite := finite_setOf_route hfree b
    have hmin : ((min {l | graph.Route a b l}.ncard 2 : ℕ) : ℕ∞)
        = min {l | graph.Route a b l}.encard 2 := by
      rw [Nat.mono_cast.map_min, hfinite.cast_ncard_eq]
      rfl
    exact ⟨hfinite, Nat.cast_inj.mp (hcard.trans hmin.symm), fun l hl ↦ hl.nodup hfree⟩
  · exact CircleBetween.pathCount_eq hs ⟨c, hac, hcc, hcb⟩

/-- From the first attractor there are two routes to the last one: the short cut, and the way
through the second. An edge back from the last to the second makes a circle of these two, to which
many routes lead, but there is still one route to the first attractor. -/
theorem pathCount_exact_shortcut :
    {l | shortcut.Route 1 3 l}.Finite ∧ min {l | shortcut.Route 1 3 l}.ncard 2 = 2 ∧
    (shortcut.addEdge 3 2).pathCount 0 2 = 2 ∧
    min {l | (shortcut.addEdge 3 2).Route 0 1 l}.encard 2 = 1 := by
  have hs := sorted_shortcut.addEdge 3 2
  obtain ⟨-, hacyclic, -⟩ := pathCount_exact sorted_shortcut 1 3
  obtain ⟨hfinite, hcard, -⟩ := hacyclic fun c _ ↦ acyclic_shortcut c
  obtain ⟨-, -, hcircle⟩ := pathCount_exact hs 0 2
  obtain ⟨hsingle, -⟩ := pathCount_exact hs 0 1
  have hjoins : ∀ e ∈ (shortcut.addEdge 3 2).edges,
      (shortcut.addEdge 3 2).Joins e.source e.target := fun e he ↦ ⟨e, he, rfl, rfl⟩
  have htwo : shortcut.pathCount 1 3 = 2 := by decide +kernel
  have hone : (shortcut.addEdge 3 2).pathCount 0 1 = 1 := by decide +kernel
  have hto : (shortcut.addEdge 3 2).Reaches 0 2 :=
    .tail (.single (hjoins ⟨0, 1, []⟩ (by decide))) (hjoins ⟨1, 2, []⟩ (by decide))
  have hround : Relation.TransGen (shortcut.addEdge 3 2).Joins 2 2 :=
    .tail (.single (hjoins ⟨2, 3, []⟩ (by decide))) (hjoins ⟨3, 2, []⟩ (by decide))
  refine ⟨hfinite, hcard.symm.trans htwo, hcircle 2 hto hround .refl, ?_⟩
  rw [← hsingle, hone]
  rfl

end Graph

end JusticeViolation

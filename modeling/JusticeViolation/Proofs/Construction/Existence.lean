import JusticeViolation.Proofs.Construction.Outcome
import JusticeViolation.Proofs.Decomposition.Solved

/-!
# Solved games have graphs

The construction for a solved game never breaks off. It ends with a graph, or finds that no rank can
be reached from the initial states. If an initial state lies in some rank, there is a graph, and the
play enters it: the initial node has a child.
-/

namespace JusticeViolation.Game

variable {sp : Space} {g : Game sp} {o : Options} {graph : Graph sp}

/-- The initial node has a child if an initial state lies in some rank. -/
theorem children_ne_nil_of_build (ho : g.OfStates) (hcover : g.RowsCover)
    (hb : g.build o = .ok graph) {r i : Nat} (hi : i ∈ g.initial) (hr : i ∈ g.rank r) :
    graph.children Graph.initialId ≠ [] := by
  obtain ⟨bare, f, hf, hbare⟩ := exists_folds_of_build ho hb
  rcases hbare with hdead | ⟨ranking, -, hfinished⟩
  · obtain ⟨n, hn, hjoins⟩ := hdead.rooted
    exact hf.children_ne_nil hdead.wellFormed hn hjoins
  · obtain ⟨q, -, hq⟩ := Shaped.exists_level hr
    obtain ⟨n, hn, hjoins⟩ := hfinished.rooted hcover q i hi hq
    exact hf.children_ne_nil hfinished.wellFormed hn hjoins

/-- The construction for a solved game ends with a graph, or there is no ranking graph. -/
theorem exists_build_or_realizable (hshape : g.shapeFault? = none) (ht : g.TwoPlayer)
    (hsolved : g.Solved) (ho : o.assumptionGraphs = false) :
    (∃ graph, g.build o = .ok graph) ∨
      (g.build o = .error .realizable ∧ g.ranking? = none) := by
  have hs := shaped_of_shapeFault?_eq_none hshape
  rw [build_eq hshape]
  cases hdead : g.deadlockGraph? with
  | some bare =>
    rw [bareGraph_of_deadlock hdead]
    exact Or.inl ⟨_, rfl⟩
  | none =>
    cases hr : g.ranking? with
    | none =>
      rw [bareGraph_of_unrealizable hdead hr]
      exact Or.inr ⟨rfl, rfl⟩
    | some ranking =>
      obtain ⟨d, hd⟩ := Decomposition.exists_decompose hs ht hsolved hr ho
      rw [bareGraph_of_ranking hdead hr, hd]
      exact Or.inl ⟨_, rfl⟩

/-- **Solved games have graphs.** All walks close, and the construction returns a graph or the
verdict that the game is realizable; if an initial state lies in some rank, it returns a graph in
which the initial node has a child. -/
theorem build_of_solved (hshape : g.shapeFault? = none) (ht : g.TwoPlayer) (hsolved : g.Solved)
    (ho : o.assumptionGraphs = false) :
    (∀ ranking, g.ranking? = some ranking → ∀ item : Item sp, item.node ∈ ranking.nodes →
      item.Ready g (Decomposition.lower ranking item.node) →
      ∀ w ∈ (item.split g (Decomposition.lower ranking item.node)).tracing.walks,
        ∃ start, w.ending = .closed start) ∧
    ((∃ graph, g.build o = .ok graph) ∨ g.build o = .error .realizable) ∧
    ∀ r, ∀ i ∈ g.initial, i ∈ g.rank r →
      ∃ graph, g.build o = .ok graph ∧ graph.children Graph.initialId ≠ [] := by
  have hs := shaped_of_shapeFault?_eq_none hshape
  have hbuild := exists_build_or_realizable hshape ht hsolved ho
  refine ⟨fun ranking hr item hnode hready w hw ↦
      Decomposition.closed_of_mem_walks hs ht hsolved hr hnode hready hw,
    hbuild.imp_right fun hreal ↦ hreal.1, fun r i hi hrank ↦ ?_⟩
  rcases hbuild with ⟨graph, hb⟩ | ⟨-, hnone⟩
  · exact ⟨graph, hb, children_ne_nil_of_build ht.toOfStates hsolved.cover hb hi hrank⟩
  · obtain ⟨q, -, hq⟩ := Shaped.exists_level hrank
    obtain ⟨ranking, hr⟩ := Ranking.exists_of_initial hi hq
    rw [hnone] at hr
    simp at hr

/-- The game of turns has a graph. -/
theorem build_turns : ∃ graph, turns.build { assumptionGraphs := false } = .ok graph ∧
    graph.children Graph.initialId ≠ [] :=
  (build_of_solved (by decide +kernel) twoPlayer_turns solved_turns rfl).2.2 0 0
    (StateSet.mem_univ.mpr (by decide)) (StateSet.mem_univ.mpr (by decide))

end JusticeViolation.Game

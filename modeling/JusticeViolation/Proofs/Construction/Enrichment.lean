import JusticeViolation.Proofs.Construction.Outcome
import JusticeViolation.Proofs.Decomposition.Plain

/-!
# Assumption graphs enrich a graph

A construction with assumption graphs ends as it does without them: with the same violation, or with
the same graph once they are dropped. There is one exception: an assumption graph is refused if a
committed step leads from the share of one row to that of a row which is not the next, and the
construction breaks off then. With two rows every other row is the next one, so this takes at least
three.
-/

namespace JusticeViolation

namespace Game

variable {sp : Space} {g : Game sp}

theorem map_plain_deadlockGraph? : g.deadlockGraph?.map Graph.plain = g.deadlockGraph? := by
  unfold deadlockGraph?
  dsimp only
  split
  · rfl
  · rw [Option.map_some, Graph.plain_addEdge, Graph.plain_addNode, Graph.plain_addNode]
    rfl

/-- A construction breaks off since an assumption graph is refused. -/
def Refuses (g : Game sp) (result : Except BuildFault (Graph sp)) : Prop :=
  2 < g.numRows ∧ ∃ r s t, result = .error (.violation (.nonConsecutiveAssumptions r s t)) ∧
    t ≠ (s + 1) % g.numRows

/-- The bare graph, with and without assumption graphs. -/
theorem map_plain_bareGraph (hs : g.Shaped) (o : Options) :
    g.Refuses (g.bareGraph { o with assumptionGraphs := true }).result ∨
      (g.bareGraph { o with assumptionGraphs := true }).result.map Graph.plain
        = (g.bareGraph { o with assumptionGraphs := false }).result := by
  cases hdead : g.deadlockGraph? with
  | some graph =>
    have hplain := map_plain_deadlockGraph? (g := g)
    rw [hdead, Option.map_some, Option.some.injEq] at hplain
    rw [bareGraph_of_deadlock hdead, bareGraph_of_deadlock hdead, Except.map, hplain]
    exact Or.inr rfl
  | none =>
    cases hr : g.ranking? with
    | none =>
      rw [bareGraph_of_unrealizable hdead hr, bareGraph_of_unrealizable hdead hr]
      exact Or.inr rfl
    | some ranking =>
      rw [bareGraph_of_ranking hdead hr, bareGraph_of_ranking hdead hr]
      rcases Decomposition.map_plain_decompose hs ranking o with
        ⟨htwo, h, r, s, t, herror, hcause, hnext⟩ | hplain
      · rw [herror]
        exact Or.inl ⟨htwo, r, s, t, by dsimp only; rw [hcause], hnext⟩
      · rw [← hplain]
        cases g.decompose { o with assumptionGraphs := true } ranking with
        | error h => exact Or.inr rfl
        | ok d => exact Or.inr rfl

/-- **Assumption graphs enrich a graph.** With them the construction ends as it does without them,
unless an assumption graph is refused; and none is if there are two rows at most. -/
theorem build_withAssumptions (g : Game sp) (o : Options) :
    ((g.build { o with assumptionGraphs := true }).map Graph.plain
        = g.build { o with assumptionGraphs := false } ∨
      ∃ r s t, g.build { o with assumptionGraphs := true }
          = .error (.violation (.nonConsecutiveAssumptions r s t)) ∧ t ≠ (s + 1) % g.numRows) ∧
    (g.numRows ≤ 2 → (g.build { o with assumptionGraphs := true }).map Graph.plain
      = g.build { o with assumptionGraphs := false }) := by
  have key : g.Refuses (g.build { o with assumptionGraphs := true }) ∨
      (g.build { o with assumptionGraphs := true }).map Graph.plain
        = g.build { o with assumptionGraphs := false } := by
    cases hshape : g.shapeFault? with
    | some fault =>
      unfold build construct
      rw [hshape]
      exact Or.inr rfl
    | none =>
      rw [build_eq hshape, build_eq hshape]
      rcases map_plain_bareGraph (shaped_of_shapeFault?_eq_none hshape) o with
        ⟨htwo, r, s, t, herror, hnext⟩ | hplain
      · rw [herror]
        exact Or.inl ⟨htwo, r, s, t, rfl, hnext⟩
      · rw [← hplain]
        cases (g.bareGraph { o with assumptionGraphs := true }).result with
        | error e => exact Or.inr rfl
        | ok graph => exact Or.inr (congrArg Except.ok (Graph.plain_finish _ false))
  rcases key with ⟨htwo, hrefused⟩ | hplain
  · exact ⟨Or.inr hrefused, fun hle ↦ absurd hle (Nat.not_le.mpr htwo)⟩
  · exact ⟨Or.inl hplain, fun _ ↦ hplain⟩

/-- The game of turns has the same graph with and without assumption graphs. -/
theorem build_withAssumptions_turns : (turns.build {}).map Graph.plain
    = turns.build { assumptionGraphs := false } :=
  (build_withAssumptions turns {}).2 (by decide)

end Game

/-! ## A game whose assumption graph is refused -/

/-- A bit of the environment and three rows. -/
def triadVariables : List Variable :=
  [environmentBit, rowMarker ⟨rangeValues 3, List.cons_ne_nil _ _, nodup_rangeValues 3⟩]

/-- Their valuations. -/
def triads : Space where
  registry := ⟨triadVariables, by decide⟩
  sizes := [2, 2, 3, 3]
  size := 36
  sizes_eq := rfl
  size_eq := rfl
  size_le := by decide

namespace Game

/-- The environment has to clear its bit for the first two assumptions, and to set it for the
third. -/
def threefold : Game triads where
  initial := .univ
  envTrans := .univ
  sysTrans := .univ
  ranks := [.univ]
  progress := [[[.literal ⟨0⟩ 0, .univ], [.literal ⟨0⟩ 0, .univ], [.literal ⟨0⟩ 1, .univ]]]
  assumptions := [⟨"cleared", "!e"⟩, ⟨"cleared again", "!e"⟩, ⟨"set", "e"⟩]
  guarantees := [⟨"never", "false"⟩]
  marker := ⟨2⟩

private theorem build_threefold :
    (threefold.build { assumptionGraphs := false }).toOption.isSome = true ∧
      (match threefold.build {} with
        | .error e => decide (e = .violation (.nonConsecutiveAssumptions 0 1 0))
        | .ok _ => false) = true := by
  decide +kernel

/-- **An assumption graph can be refused where there is a graph without it.** The states with the
bit cleared are the share of the first assumption, the others that of the second; and the choice
that clears the bit in the first row leads from the second share back to the first. -/
theorem not_forall_build_withAssumptions : ¬∀ (g : Game triads) (o : Options),
    (g.build { o with assumptionGraphs := true }).map Graph.plain
      = g.build { o with assumptionGraphs := false } := by
  intro h
  obtain ⟨hbare, hfull⟩ := build_threefold
  have heq : (threefold.build {}).map Graph.plain
    = threefold.build { assumptionGraphs := false } := h threefold {}
  rw [← heq] at hbare
  cases hb : threefold.build {} with
  | error e =>
    rw [hb] at hbare
    cases hbare
  | ok graph =>
    rw [hb] at hfull
    cases hfull

end Game

end JusticeViolation

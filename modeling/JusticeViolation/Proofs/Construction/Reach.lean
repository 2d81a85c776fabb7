import JusticeViolation.Proofs.Construction.Outcome
import JusticeViolation.Proofs.Decomposition.Entry
import JusticeViolation.Proofs.Game.Solution

/-!
# What is reached from the start

In the graph of a deadlock an edge leads to every node. In that of a decomposition every cycle has a
parent and, if there is a single assumption, every node is reached from the initial one; finding
facts and merging chains changes nothing about that. With more assumptions a node may lose all its
parents: the states of the approach that are also on the cycle are dropped from it, and with them
the start points that led to the others.
-/

namespace JusticeViolation

variable {sp : Space} {g : Game sp} {graph graph' : Graph sp}

theorem Graph.Entered.folds {f : Nat → Nat} (h : graph.Entered g) (hwf : graph.WellFormed)
    (hf : Folds f graph graph') : graph'.Entered g where
  parents_cycle := fun _ hn hkind ↦ hf.parents_cycle hwf h.parents_cycle hn hkind
  reaches := fun hone _ hn ↦ hf.reaches_initialId hwf (h.reaches hone) hn

namespace Game

theorem Deadlock.entered (h : g.Deadlock graph) : graph.Entered g where
  parents_cycle := fun n hn hkind ↦ by
    have hstuck := h.kind_eq hn (hkind ▸ fun h0 ↦ by cases h0)
    rw [hkind] at hstuck
    cases hstuck
  reaches := fun _ n hn ↦ by
    by_cases h0 : n.id = Graph.initialId
    · rw [h0]
      exact .refl
    · exact .single (h.joined n hn h0)

variable {o : Options}

/-- **Cycles are entered, and with a single assumption every node is reached.** -/
theorem entered_of_build (ho : g.OfStates) (hb : g.build o = .ok graph) :
    (∀ n ∈ graph.nodes, n.kind = .cycle → graph.parents n.id ≠ []) ∧
      (g.numRows = 1 → ∀ n ∈ graph.nodes, graph.Reaches Graph.initialId n.id) := by
  have hs := shaped_of_shapeFault?_eq_none (shapeFault?_of_build hb)
  obtain ⟨bare, rfl, hbare⟩ := exists_bareGraph_of_build hb
  obtain ⟨hwf, hentered⟩ : bare.WellFormed ∧ bare.Entered g := by
    rcases hbare with hdead | ⟨ranking, d, hr, hdec, rfl⟩
    · exact ⟨hdead.wellFormed, hdead.entered⟩
    · exact ⟨(Decomposition.finished_of_decompose hs ho hr hdec).wellFormed,
        Decomposition.entered_of_decompose hs ho hr hdec⟩
  obtain ⟨f, hf⟩ := Graph.folds_finish (g := g) hwf o
  have hfinished := hentered.folds hwf hf
  exact ⟨hfinished.parents_cycle, hfinished.reaches⟩

end Game

/-! ## A game with a single assumption -/

/-- A bit of the environment, a bit of the system and one row. -/
def loneVariables : List Variable :=
  [environmentBit, systemBit,
    rowMarker ⟨rangeValues 1, List.cons_ne_nil _ _, nodup_rangeValues 1⟩]

/-- Their valuations. -/
def loners : Space where
  registry := ⟨loneVariables, by decide⟩
  sizes := [2, 2, 2, 2, 1, 1]
  size := 16
  sizes_eq := rfl
  size_eq := rfl
  size_le := by decide

namespace Game

/-- The environment sets its bit, and it is the only one to move. -/
def settling : Game loners where
  initial := .literal ⟨0⟩ 0
  envTrans := .literal ⟨1⟩ 1
  sysTrans := .univ
  ranks := [.univ]
  progress := [[[.literal ⟨0⟩ 1, .univ]]]
  assumptions := [⟨"set", "e"⟩]
  guarantees := [⟨"never", "false"⟩]
  marker := ⟨4⟩

theorem ofStates_settling : settling.OfStates where
  initial := .literal (by decide) (by decide) 0
  ranks := fun s hs ↦ List.mem_singleton.mp hs ▸ .univ _
  layers := fun matrix hm row hrow s hs ↦ by
    rw [List.mem_singleton.mp hm] at hrow
    rw [List.mem_singleton.mp hrow] at hs
    rcases List.mem_pair.mp hs with rfl | rfl
    · exact .literal (by decide) (by decide) 1
    · exact .univ _

/-- The graph has a cycle with a parent, and an approach that is reached. -/
theorem entered_settling : ∃ graph, settling.build {} = .ok graph ∧
    (∃ n ∈ graph.nodes, n.kind = .cycle ∧ graph.parents n.id ≠ []) ∧
    ∃ n ∈ graph.nodes, n.kind = .attractorNotFromCycle ∧
      graph.Reaches Graph.initialId n.id := by
  obtain ⟨graph, hb, hany⟩ := exists_of_any_build (g := settling) (o := {})
    (p := fun graph ↦ graph.nodes.any (fun n ↦ decide (n.kind = .cycle)) &&
      graph.nodes.any fun n ↦ decide (n.kind = .attractorNotFromCycle)) (by decide +kernel)
  rw [Bool.and_eq_true, List.any_eq_true, List.any_eq_true] at hany
  obtain ⟨⟨n, hn, hcycle⟩, m, hm, happroach⟩ := hany
  rw [decide_eq_true_iff] at hcycle happroach
  obtain ⟨hparents, hreaches⟩ := entered_of_build ofStates_settling hb
  exact ⟨graph, hb, ⟨n, hn, hcycle, hparents n hn hcycle⟩, m, hm, happroach, hreaches rfl m hm⟩

/-! ## A game with a node that is not reached -/

/-- From the state with both bits clear the environment goes to the states with one bit set. -/
def detour : Game bits where
  initial := .literal ⟨0⟩ 0 ∩ .literal ⟨2⟩ 0
  envTrans := (.literal ⟨0⟩ 0 ∩ .literal ⟨2⟩ 0) ∪
    (.literal ⟨0⟩ 1 ∩ .literal ⟨2⟩ 0 ∩ .literal ⟨1⟩ 1) ∪ (.literal ⟨2⟩ 1 ∩ .literal ⟨1⟩ 0)
  sysTrans := (.literal ⟨0⟩ 0 ∩ .literal ⟨2⟩ 0 ∩ .literal ⟨1⟩ 0 ∩ .literal ⟨3⟩ 1) ∪
    (.literal ⟨0⟩ 0 ∩ .literal ⟨2⟩ 0 ∩ .literal ⟨1⟩ 1 ∩ .literal ⟨3⟩ 0) ∪
    (.literal ⟨0⟩ 1 ∩ .literal ⟨2⟩ 0 ∩ .literal ⟨3⟩ 1) ∪ (.literal ⟨2⟩ 1 ∩ .literal ⟨3⟩ 0)
  ranks := [.univ]
  progress := [[[.literal ⟨2⟩ 1, .univ], [.literal ⟨0⟩ 0 ∩ .literal ⟨2⟩ 0,
    .literal ⟨0⟩ 0 ∩ .literal ⟨2⟩ 0 ∪ .literal ⟨2⟩ 1, .univ]]]
  assumptions := [⟨"set", "s"⟩, ⟨"clear", "!e & !s"⟩]
  guarantees := [⟨"never", "false"⟩]
  marker := ⟨4⟩

theorem ofStates_detour : detour.OfStates where
  initial := (StateSet.DependsOn.literal (by decide) (by decide) 0).inter
    (.literal (by decide) (by decide) 0)
  ranks := fun s hs ↦ List.mem_singleton.mp hs ▸ .univ _
  layers := fun matrix hm row hrow s hs ↦ by
    have hclear : (.literal ⟨0⟩ 0 ∩ .literal ⟨2⟩ 0 : StateSet bits).Untagged detour.marker :=
      (StateSet.DependsOn.literal (by decide) (by decide) 0).inter
        (.literal (by decide) (by decide) 0)
    have hset : (.literal ⟨2⟩ 1 : StateSet bits).Untagged detour.marker :=
      .literal (by decide) (by decide) 1
    rw [List.mem_singleton.mp hm, List.mem_pair] at hrow
    rcases hrow with rfl | rfl
    · rcases List.mem_pair.mp hs with rfl | rfl
      · exact hset
      · exact .univ _
    · rcases List.mem_cons.mp hs with rfl | hs
      · exact hclear
      · rcases List.mem_pair.mp hs with rfl | rfl
        · exact hclear.union hset
        · exact .univ _

/-- **Not every node is reached.** -/
theorem not_forall_reaches : ¬∀ (g : Game bits) (o : Options) (graph : Graph bits),
    g.OfStates → g.build o = .ok graph →
      ∀ n ∈ graph.nodes, n.kind ≠ .initial → graph.Reaches Graph.initialId n.id := by
  intro h
  obtain ⟨graph, hb, hany⟩ := exists_of_any_build (g := detour) (o := {})
    (p := fun graph ↦ graph.nodes.any fun n ↦ decide (n.kind ≠ .initial ∧
      n.id ≠ Graph.initialId ∧ graph.parents n.id = [])) (by decide +kernel)
  obtain ⟨n, hn, hlost⟩ := List.any_eq_true.mp hany
  rw [decide_eq_true_iff] at hlost
  obtain ⟨hkind, h0, hparents⟩ := hlost
  exact (h detour {} graph ofStates_detour hb n hn hkind).parents_ne_nil h0 hparents

end Game

end JusticeViolation

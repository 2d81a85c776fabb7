import JusticeViolation.Proofs.AssumptionGraph.Partition
import JusticeViolation.Proofs.Construction.Acyclicity
import JusticeViolation.Proofs.Decomposition.Emission
import JusticeViolation.Proofs.Game.Solution

/-!
# The assumptions of a cycle cover it

The assumption graph of a rank divides what the points of its paths hold of the cycle. A cycle grows
from points of paths and never leaves them, so nothing of it is left over. Finding facts and merging
chains keep cycles as they are, and so the groups of every cycle of a graph that is built cover it.
Nothing is assumed of the sets of the game for this.
-/

namespace JusticeViolation

variable {sp : Space} {g : Game sp} {o : Options}

namespace Graph

variable {graph : Graph sp} {n' : Node sp}

/-- **Finishing keeps what belongs to a cycle**: it has the body of a cycle that was there before,
with the same states. -/
theorem exists_cycle_of_finish (h : graph.WellFormed) (hn' : n' ∈ (g.finish o graph).1.nodes)
    (hkind : n'.kind = .cycle) : ∃ n ∈ graph.nodes, n'.body = n.body ∧ n'.states = n.states := by
  obtain ⟨annotated, hannotated, hwf, hnodes⟩ : ∃ annotated : Graph sp,
      annotated = (if o.invariants then graph.annotate g else graph) ∧ annotated.WellFormed ∧
        ∀ n' ∈ annotated.nodes, ∃ n ∈ graph.nodes, n'.body = n.body ∧ n'.states = n.states := by
    split
    · refine ⟨_, rfl, h.annotate, fun n' hn' ↦ ?_⟩
      obtain ⟨n, hn, rfl⟩ := List.mem_map.mp hn'
      exact ⟨n, hn, rfl, rfl⟩
    · exact ⟨_, rfl, h, fun n hn ↦ ⟨n, hn, rfl, rfl⟩⟩
  unfold Game.finish at hn'
  dsimp only at hn'
  rw [← hannotated] at hn'
  split at hn'
  · obtain ⟨⟨f, hq⟩, -⟩ := exists_quotient_mergeAttractors (g := g) hwf.rooted o.invariants
    obtain ⟨m, hm, hid, -, hbody, -⟩ := hq.exists_member n' hn'
    have hm' : m.kind.isAttractor = false := by
      rw [Node.kind, ← hbody, ← Node.kind, hkind]
      rfl
    obtain ⟨n, hn, hbody', hstates⟩ := hnodes m hm
    refine ⟨n, hn, hbody.trans hbody', (StateSet.ext_mem fun i ↦ ?_).trans hstates⟩
    rw [hq.mem_states n' hn']
    constructor
    · rintro ⟨k, hk, hkid, hi⟩
      rwa [hwf.eq_of_id_eq hm hk (hq.id_eq_of_not_isAttractor hm hk hm' (hid.trans hkid.symm))]
    · exact fun hi ↦ ⟨m, hm, hid, hi⟩
  · exact hnodes n' hn'

end Graph

/-- A node has assumptions, and their groups hold exactly its states, tags aside. -/
def Node.Covered (g : Game sp) (n : Node sp) : Prop :=
  ∃ a, n.assumptions = some a ∧ ∀ i, (∃ G ∈ a.groups, i ∈ G.states) ↔ i ∈ g.strip n.states

namespace Decomposition

variable {ranking : Ranking sp} {n : Node sp}

/-- The body of a cycle that is not empty has the assumption graph that was asked for. -/
theorem exists_assumptionGraph_of_cycleBody (ho : o.assumptionGraphs = true) {s : Split sp}
    (hne : ∃ i, i ∈ s.cycle) {rank : Nat} {body : NodeBody sp} (h : cycleBody g o rank s = .ok body) :
    ∃ a, g.assumptionGraph rank s.cycle s.tracing.inner s.tracing.paths = .ok a ∧
      body = .cycle (some a) := by
  rcases cycleBody_eq_ok h with ⟨-, hgraph⟩ | ⟨hasked, -⟩
  · exact hgraph
  · rw [ho, StateSet.isEmpty_eq_false_iff.mpr hne] at hasked
    cases hasked

/-- The groups of the cycle of a rank cover it, for the points of the paths hold all of it. -/
theorem cover_split (hs : g.Shaped) {item : Item sp} {lower : StateSet sp} {rank : Nat}
    {a : AssumptionGraph sp} (ha : g.assumptionGraph rank (item.split g lower).cycle
      (item.split g lower).tracing.inner (item.split g lower).tracing.paths = .ok a) (i : Nat) :
    (∃ G ∈ a.groups, i ∈ G.states) ↔ i ∈ g.strip (item.split g lower).cycle := by
  rw [Game.cover_of_assumptionGraph ha, and_iff_left_iff_imp]
  intro hi
  obtain ⟨hlt, j, hj, hij⟩ := hs.mem_strip_iff.mp hi
  obtain ⟨path, hpath, p, hp, hjp⟩ := mem_unionPoints.mp (Item.Ready.mem_onPath_of_cycle hj)
  exact ⟨path, hpath, p, hp, hs.mem_strip_iff.mpr ⟨hlt, j, hjp, hij⟩⟩

/-- **The groups of an emitted cycle cover it.** -/
theorem covered_of_emitted (hs : g.Shaped) (ho : o.assumptionGraphs = true)
    (hn : n.Emitted g o ranking) (hkind : n.kind = .cycle) : n.Covered g := by
  cases hn with
  | approach => cases hkind
  | descent => cases hkind
  | cycle item id body hbody hne =>
    obtain ⟨a, ha, rfl⟩ := exists_assumptionGraph_of_cycleBody ho hne hbody
    exact ⟨a, rfl, cover_split hs ha⟩

end Decomposition

namespace Game

/-- **Every cycle of a graph that is built** was a cycle of the decomposition, with the same states. -/
theorem exists_cycle_of_build {graph : Graph sp} (hb : g.build o = .ok graph) {n : Node sp}
    (hn : n ∈ graph.nodes) (hkind : n.kind = .cycle) : ∃ ranking d, g.decompose o ranking = .ok d ∧
      ∃ m ∈ d.graph.nodes, n.body = m.body ∧ n.states = m.states := by
  obtain ⟨bare, hbare, rfl⟩ := exists_result_of_build hb
  obtain ⟨m, hm, hbody, hstates⟩ := Graph.exists_cycle_of_finish
    (numbered_of_bareGraph hbare).toWellFormed hn hkind
  rcases cases_of_bareGraph hbare with hdead | ⟨ranking, d, -, hdec, rfl⟩
  · have hdead := deadlock_of_deadlockGraph? hdead
    have hmkind : m.kind = .cycle := by rw [Node.kind, ← hbody, ← Node.kind, hkind]
    rw [hdead.kind_eq hm (by rw [hmkind]; decide)] at hmkind
    cases hmkind
  · exact ⟨ranking, d, hdec, m, hm, hbody, hstates⟩

/-- **The groups of every cycle cover it**, if assumption graphs are asked for. -/
theorem covered_of_build (ho : o.assumptionGraphs = true) {graph : Graph sp}
    (hb : g.build o = .ok graph) {n : Node sp} (hn : n ∈ graph.nodes) (hkind : n.kind = .cycle) :
    n.Covered g := by
  have hs := shaped_of_shapeFault?_eq_none (shapeFault?_of_build hb)
  obtain ⟨ranking, d, hdec, m, hm, hbody, hstates⟩ := exists_cycle_of_build hb hn hkind
  have hmkind : m.kind = .cycle := by rw [Node.kind, ← hbody, ← Node.kind, hkind]
  have hcovered : m.Covered g := by
    rcases Decomposition.of_mem_decompose hdec hm with rfl | hemitted
    · cases hmkind
    · exact Decomposition.covered_of_emitted hs ho hemitted hmkind
  obtain ⟨a, ha, hcover⟩ := hcovered
  refine ⟨a, ?_, fun i ↦ hstates ▸ hcover i⟩
  rw [Node.assumptions, hbody, ← Node.assumptions, ha]

/-- **Assumption groups partition the cycle.** For any states, any committed choices and any paths
through rows of the game: if there is an assumption graph, its groups divide what the points hold of
the cycle, each state going to the row of the first point that holds it, and its edges are the
committed steps between different groups, all to the next row. There is none if and only if such a
step leads to another row. And if assumption graphs are asked for, then the groups of every cycle of
a graph that is built cover it. -/
theorem assumptionGroups_partition (g : Game sp) :
    (∀ (rank : Nat) (cycle inner : StateSet sp) (paths : List (Path sp)),
      (∀ path ∈ paths, ∀ p ∈ path.points, p.row < g.numRows) →
      (∀ a, g.assumptionGraph rank cycle inner paths = .ok a → g.DividedBy cycle inner paths a) ∧
      ((∃ v, g.assumptionGraph rank cycle inner paths = .error v) ↔
        ∃ row row', row ≠ row' ∧ g.LeadsTo cycle inner (claimants paths) row row' ∧
          row' ≠ (row + 1) % g.numRows)) ∧
    ∀ (o : Options) (graph : Graph sp), o.assumptionGraphs = true → g.build o = .ok graph →
      ∀ n ∈ graph.nodes, n.kind = .cycle → n.Covered g :=
  ⟨fun _ _ _ _ hrows ↦ ⟨fun _ h ↦ dividedBy_of_assumptionGraph hrows h,
    exists_assumptionGraph_eq_error_iff⟩, fun _ _ ho hb _ hn hkind ↦ covered_of_build ho hb hn hkind⟩

/-- A round of the game of turns: the bit of the environment is set, then cleared. -/
def roundOfTurns : Path bits := ⟨[⟨0, 0, .literal ⟨0⟩ 1⟩, ⟨1, 0, .literal ⟨0⟩ 0⟩], 0⟩

/-- In the game of turns a round is divided between the two rows, and the graph has a cycle that its
groups cover. -/
theorem assumptionGroups_turns :
    (∃ a, turns.assumptionGraph 0 .univ .univ [roundOfTurns] = .ok a ∧
      turns.DividedBy .univ .univ [roundOfTurns] a ∧ a.edges = [(0, 1), (1, 0)]) ∧
    ∃ graph, turns.build { assumptionGraphs := true } = .ok graph ∧
      ∃ n ∈ graph.nodes, n.kind = .cycle ∧ n.Covered turns := by
  obtain ⟨hpart, hbuilt⟩ := assumptionGroups_partition turns
  constructor
  · obtain ⟨hok, -⟩ := hpart 0 .univ .univ [roundOfTurns] (by decide)
    have hedges : (turns.assumptionGraph 0 .univ .univ [roundOfTurns]).toOption.any
        (fun a ↦ a.edges = [(0, 1), (1, 0)]) = true := by decide +kernel
    cases ha : turns.assumptionGraph 0 .univ .univ [roundOfTurns] with
    | error v =>
      rw [ha] at hedges
      cases hedges
    | ok a =>
      rw [ha] at hedges
      exact ⟨a, rfl, hok a ha, of_decide_eq_true hedges⟩
  · obtain ⟨graph, hb, hany⟩ := exists_of_any_build (g := turns) (o := { assumptionGraphs := true })
      (p := fun graph ↦ graph.nodes.any fun n ↦ n.kind = .cycle) (by decide +kernel)
    obtain ⟨n, hn, hkind⟩ := List.any_eq_true.mp hany
    have hkind := of_decide_eq_true hkind
    exact ⟨graph, hb, n, hn, hkind, hbuilt _ graph rfl hb n hn hkind⟩

end Game

end JusticeViolation

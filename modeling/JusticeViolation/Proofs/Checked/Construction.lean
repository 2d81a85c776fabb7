import JusticeViolation.Proofs.Checked.Merging
import JusticeViolation.Proofs.Checked.Ranking
import JusticeViolation.Proofs.Checked.Run
import JusticeViolation.Proofs.Construction.Acyclicity

/-!
# The construction in range

A construction looks up rows, columns, levels, assumptions and numbers of nodes in many places, and
what justifies each look-up is often said elsewhere: by the shape of the game, by the position at
which a point was found, by the edges that folding takes along. Here the whole construction is
evaluated with every look-up checked. No look-up fails. This is so whatever the sets of the game
are, for every choice of options, and whether the construction ends with a graph or breaks off; it
is also so if a walk goes on for ever, for however long the construction is watched.

The shape of the game is all that is needed, and the construction checks it first.
-/

namespace JusticeViolation

open Checked

variable {sp : Space}

namespace Game

variable (g : Game sp)

/-- The graph of initial states in which the environment can leave the system stuck. -/
def checkedDeadlockGraph? : Checked (Option (Graph sp)) :=
  let choices := g.deadlocking ∩ g.initial
  let states := g.domain choices
  if states.isEmpty then return none
  else do
    let transitions ← g.checkedDeterminize choices
    let initial : Node sp := ⟨Graph.initialId, none, g.initial, ∅, [], .initial⟩
    let stuck : Node sp := ⟨1, none, states, transitions, [], .attractorFromCycle⟩
    return some (((Graph.empty.addNode initial).addNode stuck).addEdge Graph.initialId 1)

/-- The graph before facts are found and chains merged. -/
def checkedBareGraph (more : Nat) (o : Options) : Checked (Construction sp) := do
  match ← g.checkedDeadlockGraph? with
  | some graph => return ⟨.ok graph, [.deadlockForced]⟩
  | none =>
    match ← g.checkedRanking? with
    | none => return ⟨.error .realizable, []⟩
    | some ranking =>
      let events := [ranking.builtEvent, .rankingReady g.numRanks ranking.nodes.length]
      match g.checkedDecompose more o ranking with
      | .error (.broken h) => return ⟨.error (.violation h.cause), events ++ h.log.reverse⟩
      | .error stop => .error stop
      | .ok d => return ⟨.ok d.graph, events ++ d.log.reverse⟩

/-- Find the facts of a graph and merge its chains. -/
def checkedFinish (more : Nat) (o : Options) (graph : Graph sp) :
    Checked (Graph sp × List Event) :=
  (if o.invariants then graph.checkedAnnotate g else .ok graph) >>= fun graph ↦
    if o.mergeAttractors then do
      let merged ← graph.checkedMergeAttractors g more o.invariants
      return (merged.1, merged.2.map (fun f ↦ .nodeMerged f.1 f.2) ++
        [.chainsMerged merged.2.length merged.1.nodes.length])
    else return (graph, [])

/-- Construct the justice violation graph of a game, every loop of it watched for `more` rounds
beyond its bound. -/
def checkedConstruct (more : Nat) (o : Options) : Checked (Construction sp) := do
  match ← g.checkedShapeFault? with
  | some fault => return ⟨.error (.violation (.malformedMemo (.shape fault))), []⟩
  | none =>
    let bare ← g.checkedBareGraph more o
    match bare.result with
    | .error e => return ⟨.error e, bare.events⟩
    | .ok graph =>
      let finished ← g.checkedFinish more o graph
      return ⟨.ok finished.1, bare.events ++ finished.2 ++
        [.graphBuilt finished.1.nodes.length finished.1.edges.length]⟩

end Game

/-- There is no graph because a walk went on for ever. -/
def BuildFault.isEndless : BuildFault → Bool
  | realizable => false
  | violation cause => cause.isEndless

/-- What a checked evaluation gives for a construction: nothing if a walk is endless. -/
def Construction.outcome (c : Construction sp) : Checked (Construction sp) :=
  match c.result with
  | .ok _ => .ok c
  | .error e => if e.isEndless then .error .unfinished else .ok c

namespace Game

variable {g : Game sp} {o : Options} {graph : Graph sp}

theorem checkedDeadlockGraph?_eq : g.checkedDeadlockGraph? = .ok g.deadlockGraph? := by
  rw [checkedDeadlockGraph?, deadlockGraph?]
  dsimp only
  split
  · rfl
  · rw [checkedDeterminize_eq]
    rfl

theorem checkedBareGraph_eq (hs : g.Shaped) (more : Nat) :
    g.checkedBareGraph more o = (g.bareGraph o).outcome := by
  rw [checkedBareGraph, checkedDeadlockGraph?_eq, ok_bind, bareGraph]
  cases g.deadlockGraph? with
  | some graph => rfl
  | none =>
    dsimp only
    rw [checkedRanking?_eq, ok_bind]
    cases g.ranking? with
    | none => rfl
    | some ranking =>
      dsimp only
      rw [checkedDecompose_eq hs]
      cases g.decompose o ranking with
      | ok d => rfl
      | error h =>
        rw [Except.mapError, Halt.stop, Construction.outcome]
        change _ = if h.cause.isEndless then _ else _
        by_cases hend : h.cause.isEndless = true
        · rw [if_pos hend, if_pos hend]
        · rw [if_neg hend, if_neg hend]
          rfl

theorem checkedFinish_eq (h : graph.Numbered) (more : Nat) :
    g.checkedFinish more o graph = .ok (g.finish o graph) := by
  have hfacts : (if o.invariants then graph.checkedAnnotate g else .ok graph) =
      .ok (if o.invariants then graph.annotate g else graph) := by
    rw [Graph.checkedAnnotate_eq]
    split <;> rfl
  have hnumbered := h.annotated (g := g) o
  rw [checkedFinish, hfacts, ok_bind, finish]
  dsimp only
  split
  · rw [Graph.checkedMergeAttractors_eq hnumbered.toWellFormed.rooted hnumbered.sorted]
    rfl
  · rfl

/-- A checked construction gives what the construction gives, for however many rounds it is watched,
unless some walk is endless. -/
theorem checkedConstruct_eq (g : Game sp) (more : Nat) (o : Options) :
    g.checkedConstruct more o = (g.construct o).outcome := by
  rw [checkedConstruct, checkedShapeFault?_eq, ok_bind, construct]
  cases hshape : g.shapeFault? with
  | some fault => rfl
  | none =>
    dsimp only
    rw [checkedBareGraph_eq (shaped_of_shapeFault?_eq_none hshape), Construction.outcome]
    cases hbare : (g.bareGraph o).result with
    | ok graph =>
      dsimp only
      rw [ok_bind, hbare]
      dsimp only
      rw [checkedFinish_eq (numbered_of_bareGraph hbare)]
      rfl
    | error e =>
      dsimp only
      rw [Construction.outcome]
      cases hend : e.isEndless with
      | true => exact (if_pos hend).symm
      | false =>
        rw [if_neg Bool.false_ne_true, ok_bind, hbare]
        exact (if_neg (Bool.eq_false_iff.mp hend)).symm

/-- **No look-up is out of range**: not for any sets of a game, nor for any choice of options, nor
however long a construction is watched. A checked construction gives the same result and the same
reports, be it a graph or a fault, or it goes on for ever along a walk that is endless. -/
theorem checkedConstruct_ne_outOfRange (g : Game sp) (more : Nat) (o : Options) :
    g.checkedConstruct more o ≠ .error .outOfRange ∧
      g.checkedConstruct more o = (g.construct o).outcome := by
  refine ⟨?_, checkedConstruct_eq g more o⟩
  rw [checkedConstruct_eq, Construction.outcome]
  split
  · exact fun h ↦ by cases h
  · split <;> exact fun h ↦ by cases h

end Game

end JusticeViolation

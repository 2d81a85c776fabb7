import JusticeViolation.Path

/-!
# Assumption graphs

The states of a cycle node are divided among the assumptions of the environment: a state belongs to
the row of the first point that holds it, points of cycles before points of approaches. A *group*
is the share of one row. An edge says that a committed step leads from one group into another; along
a cycle the rows follow one another, so an edge has to lead to the next row.
-/

namespace JusticeViolation

/-- The share of one row in a cycle. -/
structure AssumptionGroup (sp : Space) where
  row : Nat
  assumption : Justice
  /-- Without tags. -/
  states : StateSet sp

/-- How a cycle meets the assumptions. -/
structure AssumptionGraph (sp : Space) where
  /-- In the order of the rows. -/
  groups : List (AssumptionGroup sp)
  /-- In lexicographic order. -/
  edges : List (Nat × Nat)

/-- The rows that the group of `row` leads to. -/
def AssumptionGraph.successors {sp : Space} (a : AssumptionGraph sp) (row : Nat) : List Nat :=
  (a.edges.filter (·.1 == row)).map (·.2)

/-- Add states to the share of a row; shares are in the order of the rows. -/
def addShare {sp : Space} (row : Nat) (states : StateSet sp) :
    List (Nat × StateSet sp) → List (Nat × StateSet sp)
  | [] => [(row, states)]
  | (r, s) :: shares =>
    if row < r then (row, states) :: (r, s) :: shares
    else if row = r then (r, s ∪ states) :: shares
    else (r, s) :: addShare row states shares

namespace Game

variable {sp : Space} (g : Game sp)

/-- Divide `left` among the rows of some points, in their order. -/
def shares (left : StateSet sp) (points : List (Point sp)) : List (Nat × StateSet sp) :=
  (points.foldl (fun (left, shares) p ↦
      let part := g.strip p.states ∩ left
      if part.isEmpty then (left, shares) else (left \ part, addShare p.row part shares))
    (left, [])).2

/-- The steps between different shares, in lexicographic order. -/
def shareSteps (cycle inner : StateSet sp) (shares : List (Nat × StateSet sp)) :
    List (Nat × Nat) :=
  shares.flatMap fun (source, states) ↦
    let image := g.strip (g.image (cycle ∩ states) inner)
    (shares.filter fun (target, states) ↦ source != target && image.meets states).map
      fun (target, _) ↦ (source, target)

/-- The assumption graph of a cycle, given the committed choices and the paths traced. -/
def assumptionGraph (rank : Nat) (cycle inner : StateSet sp) (paths : List (Path sp)) :
    Except Violation (AssumptionGraph sp) :=
  let points := paths.flatMap (·.cycle) ++ paths.flatMap (·.approach)
  let shares := g.shares (g.strip cycle) points
  let steps := g.shareSteps cycle inner shares
  match steps.find? fun (source, target) ↦ target != (source + 1) % g.numRows with
  | some (source, target) => .error (.nonConsecutiveAssumptions rank source target)
  | none =>
    .ok {
      groups := shares.map fun (row, states) ↦ ⟨row, g.assumptions.getD row ⟨"", ""⟩, states⟩
      edges := steps }

end Game

end JusticeViolation

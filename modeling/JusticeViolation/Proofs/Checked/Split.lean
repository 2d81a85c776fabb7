import JusticeViolation.Proofs.AssumptionGraph
import JusticeViolation.Proofs.Checked.Trace

/-!
# One rank in range

A rank that is split has its cells laid out as the maze has them, so a start point that has a cell
of the rank has one of the maze. That start points have cells is what has to be known of the rank;
all that comes after it follows. The rows of the points of a path are rows of the maze. If these are
the rows of the game, then the assumption of each is found, and so is the row behind it.
-/

namespace JusticeViolation

open Checked

variable {sp : Space}

namespace Game

variable (g : Game sp)

/-! ## The attractor -/

/-- Let an attractor grow within `states` until it takes in nothing more. -/
def checkedGrowAttractor (states lower : StateSet sp) : (fuel : Nat) → Attractor sp →
    Checked (Attractor sp)
  | 0, _ => .error .unfinished
  | fuel + 1, a =>
    let choices := (g.forcing (lower ∪ a.candidates) ∩ states) \ a.candidates
    let fresh := g.domain choices
    if fresh.isEmpty then return a
    else do
      let chosen ← g.checkedDeterminize choices
      checkedGrowAttractor states lower fuel ⟨a.candidates ∪ fresh, a.inner ∪ chosen⟩

/-- The states from which the environment forces the play into `lower`, staying in `states`, watched
for `more` rounds beyond the bound. -/
def checkedAttractor (more : Nat) (states lower : StateSet sp) : Checked (Attractor sp) :=
  g.checkedGrowAttractor states lower (sp.size + 1 + more) ⟨∅, ∅⟩

variable {g} {states lower : StateSet sp}

private theorem checkedGrowAttractor_eq (more : Nat) {fuel : Nat} {a : Attractor sp}
    (ha : a.candidates.Current) (hfuel : sp.size < fuel + a.candidates.members.card) :
    g.checkedGrowAttractor states lower (fuel + more) a =
      .ok (g.growAttractor states lower fuel a) := by
  induction fuel generalizing a with
  | zero =>
    rw [Nat.zero_add] at hfuel
    exact absurd (StateSet.card_members_le a.candidates) (Nat.not_le.mpr hfuel)
  | succ fuel ih =>
    rw [Nat.succ_add, checkedGrowAttractor, growAttractor]
    split
    · rfl
    · rename_i hne
      rw [Bool.not_eq_true] at hne
      have hlt := card_lt_of_round ha hne
      rw [checkedDeterminize_eq, ok_bind]
      exact ih (ha.union (current_domain _)) (by dsimp only; omega)

/-- **The attractor is found in range.** -/
theorem checkedAttractor_eq (g : Game sp) (more : Nat) (states lower : StateSet sp) :
    g.checkedAttractor more states lower = .ok (g.attractor states lower) := by
  have hstart : (⟨∅, ∅⟩ : Attractor sp).candidates.Current := .empty _
  rw [checkedAttractor, checkedGrowAttractor_eq more hstart (by omega), attractor,
    growAttractor_add hstart (Nat.le_add_right _ _)]

end Game

/-! ## Seeds and parts -/

namespace Item

variable (g : Game sp) (item : Item sp)

/-- The start points that lie in a maze. -/
def checkedSeeds (cells : List (List (StateSet sp))) : Checked (List (Point sp)) := do
  let points ← item.starts.mapM fun p ↦ do
    let row ← lookup cells p.row
    let cell ← lookup row p.column
    return (⟨p.row, p.column, cell ∩ g.tag p.states p.row⟩ : Point sp)
  return points.filter fun p ↦ !p.states.isEmpty

/-- Split the states of a rank, given the union of the ranks that it leads to. -/
def checkedSplit (more : Nat) (lower : StateSet sp) : Checked (Split sp) := do
  let a ← g.checkedAttractor more item.node.states lower
  let cells := item.mazeCells g a.candidates
  let maze : Maze sp := ⟨item.node.rank, cells, a.candidates ∪ lower⟩
  let seeds ← item.checkedSeeds g cells
  let tracing ← maze.checkedTrace g more a.inner seeds
  let cycles ← tracing.paths.mapM (·.checkedCycle)
  let approaches ← tracing.paths.mapM (·.checkedApproach)
  let inner := tracing.inner
  let onPath := unionPoints Path.points tracing.paths
  let cycle := g.close inner (.unionAll (cycles.flatten.map (·.states))) onPath
  let started := StateSet.unionAll (item.starts.map (·.states))
  let entry := (started ∪ g.strip (g.image onPath inner)) ∩ a.candidates
  return {
    maze, tracing, cycle
    approach := .unionAll (approaches.flatten.map (·.states)) \ g.strip cycle
    descent := g.close inner entry a.candidates }

/-- Start points have cells. -/
def Addressed : Prop :=
  ∀ p ∈ item.starts, p.row < item.cells.length ∧ p.column < (item.cells.getD p.row []).length

variable {g item}

/-- A maze has the cells of its rank. -/
theorem length_getD_mazeCells (candidates : StateSet sp) (row : Nat) :
    ((item.mazeCells g candidates).getD row []).length = (item.cells.getD row []).length := by
  rw [mazeCells, List.getD_eq_getElem?_getD, List.getD_eq_getElem?_getD, List.getElem?_map,
    List.getElem?_zipIdx]
  cases item.cells[row]? with
  | none => rfl
  | some cells => exact List.length_map _

theorem checkedSeeds_eq (h : item.Addressed) (candidates : StateSet sp) :
    item.checkedSeeds g (item.mazeCells g candidates) =
      .ok (item.seeds g (item.mazeCells g candidates)) := by
  rw [checkedSeeds, mapM_eq_ok fun p hp ↦ ?_]
  · rfl
  · obtain ⟨hrow, hcolumn⟩ := h p hp
    rw [lookup_getD (by rwa [mazeCells, List.length_map, List.length_zipIdx]) [], ok_bind,
      lookup_getD (by rwa [length_getD_mazeCells]) ∅]
    rfl


end Item

/-- What a checked evaluation gives for a split: nothing if a walk is endless. -/
def Split.outcome (s : Split sp) : Checked (Split sp) :=
  if s.tracing.violation.any (·.isEndless) then .error .unfinished else .ok s

theorem unionAll_map_flatten (points : Path sp → List (Point sp)) (paths : List (Path sp)) :
    StateSet.unionAll ((paths.map points).flatten.map (·.states)) = unionPoints points paths := by
  rw [unionPoints, List.map_flatten, List.map_map, List.flatMap_def]
  rfl

/-- **A rank is split in range.** -/
theorem Item.checkedSplit_eq {g : Game sp} {item : Item sp} (h : item.Addressed) (more : Nat)
    (lower : StateSet sp) : item.checkedSplit g more lower = (item.split g lower).outcome := by
  have hseeds := item.hasCell_seeds (g := g) (item.maze g lower)
  have htrace : (item.maze g lower).checkedTrace g more (item.attractor g lower).inner
      (item.seeds g (item.maze g lower).cells) = (item.split g lower).tracing.outcome :=
    Maze.checkedTrace_eq g more _ hseeds
  have hstart : ∀ p ∈ (item.split g lower).tracing.paths, p.start ≤ p.points.length :=
    Maze.start_le_of_mem_paths hseeds
  rw [checkedSplit, Game.checkedAttractor_eq, ok_bind]
  dsimp only
  rw [checkedSeeds_eq h, ok_bind]
  change ((item.maze g lower).checkedTrace g more (item.attractor g lower).inner
    (item.seeds g (item.maze g lower).cells) >>= _) = _
  rw [htrace, Tracing.outcome, Split.outcome]
  split
  · rfl
  · rw [ok_bind, mapM_eq_ok fun p hp ↦ Path.checkedCycle_eq (hstart p hp), ok_bind,
      mapM_eq_ok fun p hp ↦ Path.checkedApproach_eq (hstart p hp), ok_bind,
      unionAll_map_flatten, unionAll_map_flatten]
    rfl

/-! ## The assumption graph -/

/-- The assumption graph of a cycle, given the committed choices and the paths traced. -/
def Game.checkedAssumptionGraph (g : Game sp) (rank : Nat) (cycle inner : StateSet sp)
    (paths : List (Path sp)) : Checked (Except Violation (AssumptionGraph sp)) := do
  let cycles ← paths.mapM (·.checkedCycle)
  let approaches ← paths.mapM (·.checkedApproach)
  let shares := g.shares (g.strip cycle) (cycles.flatten ++ approaches.flatten)
  let steps := g.shareSteps cycle inner shares
  let wrong? ← steps.findSomeM? fun e ↦ do
    let next ← remainder (e.1 + 1) g.numRows
    return if e.2 != next then some e else none
  match wrong? with
  | some e => return .error (.nonConsecutiveAssumptions rank e.1 e.2)
  | none =>
    let groups ← shares.mapM fun share ↦ do
      let assumption ← lookup g.assumptions share.1
      return (⟨share.1, assumption, share.2⟩ : AssumptionGroup sp)
    return .ok { groups, edges := steps }

/-- **An assumption graph is made in range**: every row has an assumption, and a row behind it. -/
theorem Item.checkedAssumptionGraph_eq {g : Game sp} {item : Item sp}
    (hpos : 0 < g.numRows) (hrows : item.cells.length ≤ g.numRows) (rank : Nat)
    (cycle inner lower : StateSet sp) :
    g.checkedAssumptionGraph rank cycle inner (item.split g lower).tracing.paths =
      .ok (g.assumptionGraph rank cycle inner (item.split g lower).tracing.paths) := by
  have hstart : ∀ p ∈ (item.split g lower).tracing.paths, p.start ≤ p.points.length :=
    Maze.start_le_of_mem_paths (item.hasCell_seeds (g := g) (item.maze g lower))
  have hshare : ∀ share ∈ g.shares (g.strip cycle)
      ((item.split g lower).tracing.paths.flatMap (·.cycle) ++
        (item.split g lower).tracing.paths.flatMap (·.approach)),
      share.1 < g.assumptions.length := fun share hshare ↦ by
    obtain ⟨path, hpath, p, hp, hrow⟩ := Game.exists_point_of_mem_shares hshare
    exact hrow ▸ (row_lt_of_mem_paths hpath hp).trans_le hrows
  rw [Game.checkedAssumptionGraph, mapM_eq_ok fun p hp ↦ Path.checkedCycle_eq (hstart p hp),
    ok_bind, mapM_eq_ok fun p hp ↦ Path.checkedApproach_eq (hstart p hp), ok_bind,
    Game.assumptionGraph, ← List.flatMap_def, ← List.flatMap_def]
  dsimp only
  rw [findSomeM?_eq_find? (p := fun e ↦ e.2 != (e.1 + 1) % g.numRows) fun e _ ↦ by
    rw [remainder_of_pos hpos]; rfl, ok_bind]
  split
  · rename_i hfind
    rw [hfind]
    rfl
  · rename_i hfind
    rw [hfind, mapM_eq_ok fun share hmem ↦ by
      rw [lookup_getD (hshare share hmem) ⟨"", ""⟩, ok_bind, pure_eq_ok], ok_bind]
    rfl

end JusticeViolation

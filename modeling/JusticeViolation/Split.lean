import JusticeViolation.Path

/-!
# Splitting the states of a rank

One rank at a time is split into three parts. From the *candidates* the environment forces the play
into a lower rank, or leaves the system stuck; the choices that do so are committed round by round.
Through the other states paths are traced. The points of their cycles, and all that the committed
choices reach from these, make up the *cycle*; points of approaches that are on no cycle, under
any tag, make up the *approach*. Of the candidates only those matter that are entered: the *descent*
is what the committed choices reach from start points and from paths.
-/

namespace JusticeViolation

/-- The candidates of a rank, with the choices committed for them. -/
structure Attractor (sp : Space) where
  candidates : StateSet sp
  inner : StateSet sp

namespace Game

variable {sp : Space} (g : Game sp)

/-- Let an attractor grow within `states` until it takes in nothing more. -/
def growAttractor (states lower : StateSet sp) : (fuel : Nat) → Attractor sp → Attractor sp
  | 0, a => a
  | fuel + 1, a =>
    let choices := (g.forcing (lower ∪ a.candidates) ∩ states) \ a.candidates
    let fresh := g.domain choices
    if fresh.isEmpty then a
    else growAttractor states lower fuel ⟨a.candidates ∪ fresh, a.inner ∪ g.determinize choices⟩

/-- The states from which the environment forces the play into `lower`, staying in `states`. Every
round takes in a state, so there are no more rounds than valuations. -/
def attractor (states lower : StateSet sp) : Attractor sp :=
  g.growAttractor states lower sp.size ⟨∅, ∅⟩

/-- What the committed choices reach from `states`, staying in `within`. -/
def close (inner states within : StateSet sp) : StateSet sp :=
  .closure (fun s ↦ g.image s inner ∩ within) states

end Game

namespace Item

variable {sp : Space} (g : Game sp) (item : Item sp)

/-- The cells without the candidates, tagged with their rows. -/
def mazeCells (candidates : StateSet sp) : List (List (StateSet sp)) :=
  item.cells.zipIdx.map fun (cells, row) ↦ cells.map fun cell ↦ g.tag (cell \ candidates) row

/-- The start points that lie in a maze. -/
def seeds (cells : List (List (StateSet sp))) : List (Point sp) :=
  (item.starts.map fun p ↦
    (⟨p.row, p.column, (cells.getD p.row []).getD p.column ∅ ∩ g.tag p.states p.row⟩ :
      Point sp)).filter fun p ↦ !p.states.isEmpty

end Item

/-- A rank that has been explored. -/
structure Split (sp : Space) where
  maze : Maze sp
  tracing : Tracing sp
  approach : StateSet sp
  cycle : StateSet sp
  descent : StateSet sp

/-- The union of some points of all paths. -/
def unionPoints {sp : Space} (points : Path sp → List (Point sp)) (paths : List (Path sp)) :
    StateSet sp :=
  .unionAll (paths.flatMap fun p ↦ (points p).map (·.states))

/-- Split the states of a rank, given the union of the ranks that it leads to. -/
def Item.split {sp : Space} (g : Game sp) (item : Item sp) (lower : StateSet sp) : Split sp :=
  let a := g.attractor item.node.states lower
  let cells := item.mazeCells g a.candidates
  let maze : Maze sp := ⟨item.node.rank, cells, a.candidates ∪ lower⟩
  let tracing := maze.trace g a.inner (item.seeds g cells)
  let inner := tracing.inner
  let onPath := unionPoints Path.points tracing.paths
  let cycle := g.close inner (unionPoints Path.cycle tracing.paths) onPath
  let started := StateSet.unionAll (item.starts.map (·.states))
  let entry := (started ∪ g.strip (g.image onPath inner)) ∩ a.candidates
  { maze, tracing, cycle
    approach := unionPoints Path.approach tracing.paths \ g.strip cycle
    descent := g.close inner entry a.candidates }

end JusticeViolation

import JusticeViolation.Progress
import JusticeViolation.Violation

/-!
# Paths through progress cells

A path leads the play from cell to cell: from a positive column to a lower column of the same row,
from column 0 to any column of the next row. A step commits the environment to one choice for every
state that takes it. Choices that were committed earlier are kept: a state moves by its committed
choice or not at all.

A step narrows the point it leaves to the states that can take it. The path is closed by the first
step that leads to a point it has been at. States that were dropped, and answers of the system that
land in another cell than the one the path goes to, become points from which further paths are
traced, until every state that a committed choice can reach is covered.

## Termination

Nothing bounds the length of a path from the start, and there are games on which a path never
closes. Between two new commitments, however, a step is determined by the point it leaves. If a
point is arrived at for the third time since the last new commitment, then the points narrowed
between its first two arrivals were all compared with everything that lies between its second and
its third, so no comparison to come can succeed, and the path is reported as endless. There are
only so many points and so many valuations to commit, which bounds the number of steps (`fuel`).
-/

namespace JusticeViolation

/-- Some states of a cell, tagged with its row. -/
structure Point (sp : Space) where
  row : Nat
  column : Nat
  states : StateSet sp
deriving DecidableEq

/-- A path that has been closed. -/
structure Path (sp : Space) where
  points : List (Point sp)
  /-- The position of the first point of the cycle. -/
  start : Nat

namespace Path

variable {sp : Space} (p : Path sp)

/-- The points before the cycle. -/
def approach : List (Point sp) := p.points.take p.start

/-- The points of the cycle. -/
def cycle : List (Point sp) := p.points.drop p.start

/-- The rows that the cycle visits, ascending. -/
def cycleRows : List Nat := ascending (p.cycle.map (·.row))

end Path

/-- A cycle has to visit every row, if there is more than one. -/
def skippedRows? (rank row column : Nat) (visited : List Nat) (rows : Nat) : Option Violation :=
  if 1 < rows ∧ visited.length ≠ rows then
    some (.cycleSkipsRows rank row column visited rows)
  else none

/-- Where paths are traced: the cells of a rank, tagged with their rows, and the states outside
them into which answers may fall as well. -/
structure Maze (sp : Space) where
  rank : Nat
  cells : List (List (StateSet sp))
  escape : StateSet sp

/-- One step of a path. -/
structure Step (sp : Space) where
  /-- The states that take it. -/
  movers : StateSet sp
  /-- Their choices. -/
  chosen : StateSet sp
  next : Point sp
  /-- What the path does not follow. -/
  spill : List (Point sp)

namespace Maze

variable {sp : Space} (g : Game sp) (m : Maze sp)

/-! ## One step -/

/-- The cells of a row. -/
def row (row : Nat) : List (StateSet sp) := m.cells.getD row []

/-- The row that a point leads to, and the highest column there. -/
def target? (p : Point sp) : Option (Nat × Nat) :=
  if 0 < p.column then some (p.row, p.column - 1)
  else
    let row := (p.row + 1) % m.cells.length
    match (m.row row).length with
    | 0 => none
    | n + 1 => some (row, n)

/-- The states of the cells of a row up to a column. -/
def reach (row column : Nat) : StateSet sp := .unionAll ((m.row row).take (column + 1))

/-- The choices that may be committed for the states of `p` to enter `row` at `top` or below. -/
def allowed (inner : StateSet sp) (p : Point sp) (row top : Nat) : StateSet sp :=
  let forcing := g.forcing (m.reach row top ∪ m.escape) ∩ g.entering row ∩ p.states
  let committed := inner ∩ p.states
  forcing \ g.domain committed ∪ forcing ∩ committed

/-- The step of `p` to one column, by choices in `allowed`, if some choice lands there. -/
def stepTo? (allowed : StateSet sp) (p : Point sp) (row top column : Nat) : Option (Step sp) :=
  let cell := (m.row row).getD column ∅
  if cell.isEmpty then none
  else
    let landing := allowed ∩ g.landing cell
    if landing.isEmpty then none
    else
      let chosen := g.determinize landing
      let movers := g.domain chosen
      let full := g.image movers chosen
      let others := ((List.range (top + 1)).filter (· != column)).map fun other ↦
        (⟨row, other, full ∩ (m.row row).getD other ∅⟩ : Point sp)
      let dropped : Point sp := ⟨p.row, p.column, p.states \ movers⟩
      some {
        movers, chosen
        next := ⟨row, column, full ∩ cell⟩
        spill := (others ++ [dropped]).filter fun q ↦ !q.states.isEmpty }

/-- The step of `p`, to the highest column that it can reach. -/
def step? (inner : StateSet sp) (p : Point sp) : Option (Step sp) :=
  match m.target? p with
  | none => none
  | some (row, top) =>
    let allowed := m.allowed g inner p row top
    (List.range (top + 1)).reverse.findSome? (m.stepTo? g allowed p row top)

/-! ## One path -/

end Maze

/-- How a walk ended. -/
inductive Ending
  /-- At a point that it had been at. -/
  | closed (start : Nat)
  | stuck
  | endless
deriving DecidableEq, Repr

/-- A walk through a maze. -/
structure Walk (sp : Space) where
  /-- The points, each but the last narrowed to the states that moved on. -/
  points : List (Point sp)
  ending : Ending
  /-- All choices committed so far. -/
  inner : StateSet sp
  /-- What the walk did not follow. -/
  spill : List (Point sp)

namespace Maze

variable {sp : Space} (g : Game sp) (m : Maze sp)

/-- Walk on from `last`, having been at `points`, and at `arrivals` since the last commitment. -/
def walkFrom : (fuel : Nat) → (inner : StateSet sp) → (points : List (Point sp)) →
    (last : Point sp) → (spill arrivals : List (Point sp)) → Walk sp
  | 0, inner, points, last, spill, _ => ⟨points ++ [last], .endless, inner, spill⟩
  | fuel + 1, inner, points, last, spill, arrivals =>
    match m.step? g inner last with
    | none => ⟨points ++ [last], .stuck, inner, spill⟩
    | some s =>
      let points := points ++ [{ last with states := s.movers }]
      let grown := inner ∪ s.chosen
      let spill := spill ++ s.spill
      match points.findIdx? (· == s.next) with
      | some start => ⟨points, .closed start, grown, spill⟩
      | none =>
        if grown ≠ inner then walkFrom fuel grown points s.next spill [s.next]
        else if 2 ≤ arrivals.count s.next then ⟨points, .endless, grown, spill⟩
        else walkFrom fuel grown points s.next spill (s.next :: arrivals)

/-- More steps than any walk takes: every point is arrived at twice at most between two
commitments, and there are no more commitments than valuations. -/
def fuel : Nat :=
  (sp.size + 1) * (2 * m.cells.flatten.length * Nat.pow 2 sp.size + 2)

/-- The walk that begins at `p`. -/
def walk (inner : StateSet sp) (p : Point sp) : Walk sp :=
  m.walkFrom g m.fuel inner [] p [] [p]

end Maze

/-! ## All paths -/

namespace Walk

variable {sp : Space} (w : Walk sp)

/-- The path of a walk. -/
def path : Path sp :=
  ⟨w.points, match w.ending with
    | .closed start => start
    | _ => w.points.length⟩

/-- Why a walk does not make a path. -/
def violation? (m : Maze sp) : Option Violation :=
  let cell := fun p : Point sp ↦ (p.row, p.column)
  match w.ending with
  | .stuck =>
    let (row, column) := (w.points.getLast?.map cell).getD (0, 0)
    some (.pathStuck m.rank row column)
  | .endless =>
    let (row, column) := (w.points.getLast?.map cell).getD (0, 0)
    some (.pathEndless m.rank row column)
  | .closed start =>
    let (row, column) := (w.points[start]?.map cell).getD (0, 0)
    skippedRows? m.rank row column w.path.cycleRows m.cells.length

/-- The points that a walk arrived at, the last one closing it. -/
def arrivals : List (Point sp) :=
  w.points.tail ++ match w.ending with
    | .closed start => w.points[start]?.toList
    | _ => []

end Walk

/-- All paths traced so far. -/
structure Tracing (sp : Space) where
  walks : List (Walk sp)
  /-- All choices committed so far. -/
  inner : StateSet sp
  violation : Option Violation

namespace Tracing

variable {sp : Space} (t : Tracing sp)

/-- The paths. -/
def paths : List (Path sp) := t.walks.map (·.path)

/-- What is reported about the tracing. -/
def events (m : Maze sp) : List Event :=
  t.walks.flatMap fun w ↦ w.arrivals.map fun p ↦ .pathExtended m.rank p.row p.column

end Tracing

/-- The first point with states that are not covered, narrowed to these, and the points behind
it. -/
def nextSeed? {sp : Space} (covered : StateSet sp) :
    List (Point sp) → Option (Point sp × List (Point sp))
  | [] => none
  | p :: ps =>
    let states := p.states \ covered
    if states.isEmpty then nextSeed? covered ps else some ({ p with states }, ps)

namespace Maze

variable {sp : Space} (g : Game sp) (m : Maze sp)

/-- Trace paths from `pending` on, given the states that are covered. -/
def traceFrom : (fuel : Nat) → (pending : List (Point sp)) → (covered : StateSet sp) →
    Tracing sp → Tracing sp
  | 0, _, _, t => t
  | fuel + 1, pending, covered, t =>
    match nextSeed? covered pending with
    | none => t
    | some (seed, pending) =>
      let w := m.walk g t.inner seed
      let t := { t with walks := t.walks ++ [w], inner := w.inner }
      match w.violation? m with
      | some v => { t with violation := some v }
      | none =>
        traceFrom fuel (pending ++ w.spill) (covered ∪ .unionAll (w.points.map (·.states))) t

/-- Trace paths from every seed, and from all that these paths do not follow. Every path covers a
state that was not covered before, so there are no more paths than valuations. -/
def trace (inner : StateSet sp) (seeds : List (Point sp)) : Tracing sp :=
  m.traceFrom g (sp.size + 1) seeds ∅ ⟨[], inner, none⟩

end Maze

end JusticeViolation

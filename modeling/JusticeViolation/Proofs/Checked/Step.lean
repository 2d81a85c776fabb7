import JusticeViolation.Proofs.Checked.Basic
import JusticeViolation.Proofs.Path.Rows

/-!
# Steps in range

A step looks at the cells of the row that its point leads to, up to some column, and at the table of
what can be reached there. The row is that of the point or, modulo the number of rows, the next one.
It has a column if the point has a cell: a positive column of the point leads to the one before it,
and from the first column the path goes to the last column of the next row, or to none. So a step
that begins in a cell finds all that it looks for. What it leads to and what it spills has a cell
again, which keeps a whole walk in range.
-/

namespace JusticeViolation

open Checked

variable {sp : Space}

/-! ## The table of what can be reached -/

/-- The unions of `seen` with the first of some sets, with the first two, and so on. -/
def StateSet.running (seen : StateSet sp) : List (StateSet sp) → List (StateSet sp)
  | [] => []
  | s :: ss => (seen ∪ s) :: running (seen ∪ s) ss

theorem StateSet.running_getElem? (seen : StateSet sp) {ss : List (StateSet sp)} {top : Nat}
    (htop : top < ss.length) :
    (running seen ss)[top]? = some ((ss.take (top + 1)).foldl (· ∪ ·) seen) := by
  induction ss generalizing seen top with
  | nil => exact absurd htop (Nat.not_lt_zero top)
  | cons s ss ih =>
    cases top with
    | zero => rfl
    | succ top => exact ih (seen ∪ s) (Nat.lt_of_succ_lt_succ htop)

namespace Maze

variable (g : Game sp) (m : Maze sp)

/-- For every cell the states of its row up to its column. -/
def reachTable : List (List (StateSet sp)) := m.cells.map (StateSet.running ∅)

/-- The states of the cells of a row up to a column. -/
def checkedReach (row column : Nat) : Checked (StateSet sp) := do
  let unions ← lookup m.reachTable row
  lookup unions column

/-- One cell. -/
def checkedCell (row column : Nat) : Checked (StateSet sp) := do
  let cells ← lookup m.cells row
  lookup cells column

/-! ## One step -/

/-- The row that a point leads to, and the highest column there. -/
def checkedTarget? (p : Point sp) : Checked (Option (Nat × Nat)) :=
  if 0 < p.column then do
    let top ← minus p.column 1
    return some (p.row, top)
  else do
    let row ← remainder (p.row + 1) m.cells.length
    let cells ← lookup m.cells row
    match cells.length with
    | 0 => return none
    | n + 1 => return some (row, n)

/-- The choices that may be committed for the states of `p` to enter `row` at `top` or below. -/
def checkedAllowed (inner : StateSet sp) (p : Point sp) (row top : Nat) :
    Checked (StateSet sp) := do
  let reached ← m.checkedReach row top
  let forcing := g.forcing (reached ∪ m.escape) ∩ g.entering row ∩ p.states
  let committed := inner ∩ p.states
  return forcing \ g.domain committed ∪ forcing ∩ committed

/-- The step of `p` to one column, by choices in `allowed`, if some choice lands there. -/
def checkedStepTo? (allowed : StateSet sp) (p : Point sp) (row top column : Nat) :
    Checked (Option (Step sp)) := do
  let cell ← m.checkedCell row column
  if cell.isEmpty then return none
  else
    let landing := allowed ∩ g.landing cell
    if landing.isEmpty then return none
    else
      let chosen ← g.checkedDeterminize landing
      let movers := g.domain chosen
      let full := g.image movers chosen
      let others ← ((List.range (top + 1)).filter (· != column)).mapM fun other ↦ do
        let cell ← m.checkedCell row other
        return (⟨row, other, full ∩ cell⟩ : Point sp)
      let dropped : Point sp := ⟨p.row, p.column, p.states \ movers⟩
      return some {
        movers, chosen
        next := ⟨row, column, full ∩ cell⟩
        spill := (others ++ [dropped]).filter fun q ↦ !q.states.isEmpty }

/-- The step of `p`, to the highest column that it can reach. -/
def checkedStep? (inner : StateSet sp) (p : Point sp) : Checked (Option (Step sp)) := do
  match ← m.checkedTarget? p with
  | none => return none
  | some target =>
    let allowed ← m.checkedAllowed g inner p target.1 target.2
    (List.range (target.2 + 1)).reverse.findSomeM?
      (m.checkedStepTo? g allowed p target.1 target.2)

/-! ## What is found -/

variable {g m} {inner allowed : StateSet sp} {p : Point sp} {row top column : Nat} {s : Step sp}

theorem checkedCell_eq (hrow : row < m.cells.length) (hcolumn : column < (m.row row).length) :
    m.checkedCell row column = .ok ((m.row row).getD column ∅) := by
  rw [checkedCell, lookup_getD hrow [], ok_bind]
  exact lookup_getD hcolumn ∅

theorem checkedReach_eq (hrow : row < m.cells.length) (htop : top < (m.row row).length) :
    m.checkedReach row top = .ok (m.reach row top) := by
  have hunions : m.reachTable[row]? = some (StateSet.running ∅ (m.row row)) := by
    rw [reachTable, List.getElem?_map, Maze.row, List.getD_eq_getElem _ _ hrow,
      List.getElem?_eq_getElem hrow, Option.map_some]
  rw [checkedReach, lookup_eq_ok hunions, ok_bind]
  exact lookup_eq_ok (StateSet.running_getElem? ∅ htop)

theorem checkedTarget?_eq (hp : m.HasCell p) : m.checkedTarget? p = .ok (m.target? p) := by
  rw [checkedTarget?, target?]
  split
  · rename_i hpos
    rw [minus_of_le hpos]
    rfl
  · have hlt : (p.row + 1) % m.cells.length < m.cells.length :=
      Nat.mod_lt _ (Nat.zero_lt_of_lt hp.row_lt)
    rw [remainder_of_pos (Nat.zero_lt_of_lt hp.row_lt), ok_bind, lookup_getD hlt [], ok_bind]
    dsimp only [row]
    cases (m.cells.getD ((p.row + 1) % m.cells.length) []).length <;> rfl

theorem checkedStepTo?_eq (hrow : row < m.cells.length) (htop : top < (m.row row).length)
    (hcolumn : column ≤ top) (allowed : StateSet sp) (p : Point sp) :
    m.checkedStepTo? g allowed p row top column = .ok (m.stepTo? g allowed p row top column) := by
  rw [checkedStepTo?, checkedCell_eq hrow (hcolumn.trans_lt htop), ok_bind, stepTo?]
  dsimp only
  split
  · rfl
  · split
    · rfl
    · rw [Game.checkedDeterminize_eq, ok_bind]
      rw [mapM_eq_ok fun other hother ↦ ?_]
      · rfl
      · have hle := List.mem_range.mp (List.mem_filter.mp hother).1
        rw [checkedCell_eq hrow (by omega)]
        rfl

/-- **A step from a cell is in range.** -/
theorem checkedStep?_eq (g : Game sp) (inner : StateSet sp) (hp : m.HasCell p) :
    m.checkedStep? g inner p = .ok (m.step? g inner p) := by
  rw [checkedStep?, checkedTarget?_eq hp, ok_bind, step?]
  cases htarget : m.target? p with
  | none => rfl
  | some target =>
    obtain ⟨row, top⟩ := target
    obtain ⟨hrow, htop⟩ := hp.target htarget
    dsimp only
    rw [checkedAllowed, checkedReach_eq hrow htop, ok_bind, pure_eq_ok, ok_bind]
    refine findSomeM?_eq_ok fun column hcolumn ↦ checkedStepTo?_eq hrow htop ?_ _ p
    rw [List.mem_reverse, List.mem_range] at hcolumn
    omega

/-- Without rows there is no next row to look up. -/
example : (⟨0, [], ∅⟩ : Maze sp).checkedStep? g inner ⟨0, 0, ∅⟩ = .error .outOfRange := rfl

end Maze

end JusticeViolation

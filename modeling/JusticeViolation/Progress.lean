import JusticeViolation.Ascending
import JusticeViolation.Ranking

/-!
# Progress cells and start points

For one rank, every row of the progress matrix splits the states of the rank by the first layer
that holds them; the parts are the *cells* of the rank, addressed by row and column. An `Item` is a
rank waiting to be decomposed: its cells, and for some of them *start points*, the states by which
nodes that are already built lead into the cell.
-/

namespace JusticeViolation

/-- What the layers hold of `states`, each beyond the layers before it and `seen`. -/
def StateSet.firstMet {sp : Space} (states seen : StateSet sp) :
    List (StateSet sp) → List (StateSet sp)
  | [] => []
  | layer :: layers => (layer \ seen) ∩ states :: firstMet states (seen ∪ layer) layers

/-- The cells of a rank with the given states. -/
def Game.cells {sp : Space} (g : Game sp) (rank : Nat) (states : StateSet sp) :
    List (List (StateSet sp)) :=
  (g.progress.getD rank []).map (states.firstMet ∅)

/-- States of a cell into which nodes of the graph lead. -/
structure StartPoint (sp : Space) where
  row : Nat
  column : Nat
  states : StateSet sp
  /-- The nodes that lead here, ascending. -/
  sources : List Nat

/-- Add states to the start point of a cell; start points are in the order of their cells. -/
def StartPoint.add {sp : Space} (row column : Nat) (states : StateSet sp) (source : Nat) :
    List (StartPoint sp) → List (StartPoint sp)
  | [] => [⟨row, column, states, [source]⟩]
  | p :: ps =>
    if p.row = row ∧ p.column = column then
      ⟨row, column, p.states ∪ states, insertAscending source p.sources⟩ :: ps
    else if pairLt (row, column) (p.row, p.column) then
      ⟨row, column, states, [source]⟩ :: p :: ps
    else p :: add row column states source ps

/-- A rank waiting to be decomposed. -/
structure Item (sp : Space) where
  node : RankNode sp
  cells : List (List (StateSet sp))
  starts : List (StartPoint sp)

/-- The item of a rank, without start points. -/
def Game.item {sp : Space} (g : Game sp) (node : RankNode sp) : Item sp :=
  ⟨node, g.cells node.rank node.states, []⟩

namespace Item

variable {sp : Space} (item : Item sp)

/-- The cells with their addresses, row by row. -/
def addressed : List (Nat × Nat × StateSet sp) :=
  item.cells.zipIdx.flatMap fun (cells, row) ↦
    cells.zipIdx.map fun (cell, column) ↦ (row, column, cell)

/-- What the cells hold of `states`, where it is not empty. -/
def parts (states : StateSet sp) : List (Nat × Nat × StateSet sp) :=
  (item.addressed.map fun (row, column, cell) ↦ (row, column, states ∩ cell)).filter
    fun p ↦ !p.2.2.isEmpty

/-- Add start points. -/
def addStarts (starts : List (Nat × Nat × StateSet sp)) (source : Nat) : Item sp :=
  { item with
    starts := starts.foldl (fun ps (row, column, states) ↦
      StartPoint.add row column states source ps) item.starts }

/-- Make `states` start points of every cell that they meet. -/
def offer (states : StateSet sp) (source : Nat) : Item sp :=
  item.addStarts (item.parts states) source

/-- The nodes that lead into an item, ascending. -/
def sources : List Nat := ascending (item.starts.flatMap (·.sources))

end Item

end JusticeViolation

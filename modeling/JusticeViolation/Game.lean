import JusticeViolation.StateSet

/-!
# Solved games

A game between an environment and a system, together with the fixpoint by which the environment
was found to win it. The winning states come in *ranks*, each the states from which the
environment wins by visiting rank after rank downwards. For every rank and every assumption of
the environment (a *row*) there are layers of *progress*: the first layer leads to the assumption
at once, later ones through earlier ones.

Sets and relations alike are sets of valuations. A *row marker*, a variable of neither player with
as many values as there are rows, tags a state with the row it is being led along; the relations of
the game must not mention it. What the later constructions rely on is checked by `shapeFault?`,
which answers the first fault in a fixed order.
-/

namespace JusticeViolation

/-- An assumption of the environment or a guarantee of the system. -/
structure Justice where
  id : String
  text : String
deriving DecidableEq, Repr

/-- The name of the row marker. -/
def rowMarkerName : String := "__jvg_row"

/-- A number of rows as a word of the row marker. The words have 32 bits, and what does not fit is
dropped; a space admits no marker with so many values that a row of the game would not fit. -/
def rowMarkerWord (n : Nat) : Nat := n % 0x100000000

theorem rowMarkerWord_of_lt {n : Nat} (h : n < 0x100000000) : rowMarkerWord n = n :=
  Nat.mod_eq_of_lt h

/-- A game that the environment wins, with the layers of its solution. -/
structure Game (sp : Space) where
  initial : StateSet sp
  /-- The moves of the environment. -/
  envTrans : StateSet sp
  /-- The answers of the system. -/
  sysTrans : StateSet sp
  /-- The states of each rank and of those below it. -/
  ranks : List (StateSet sp)
  /-- For each rank and row, the layers of progress. -/
  progress : List (List (List (StateSet sp)))
  assumptions : List Justice
  guarantees : List Justice
  marker : VarId

/-- A cause for which the shape of a memo is refused. -/
inductive ShapeFault
  | valuesAndSize (name : String)
  | noAssumption
  | markerNotCurrent (marker : VarId)
  | markerUnfit (name : String) (rows : Nat)
  | markerMentioned (name : String)
  | matrixCount (ranks matrices : Nat)
  | rowCount (rank found expected : Nat)
  | emptyRow (rank row : Nat)
  | notMonotone
deriving DecidableEq, Repr

/-- The explanation shown to a user. -/
def ShapeFault.message : ShapeFault → String
  | valuesAndSize name => s!"variable '{name}' lists both values and size"
  | noAssumption => "at least one environment justice is required"
  | markerNotCurrent marker =>
    s!"row marker {marker.display} is not a current variable of the registry"
  | markerUnfit name rows => s!"row marker '{name}' must be an aux variable with {rows} values"
  | markerMentioned name => s!"game relations must not mention '{name}'"
  | matrixCount ranks matrices => s!"{ranks} rank layers but {matrices} progress matrices"
  | rowCount rank found expected =>
    s!"rank {rank} has {found} progress rows, expected {expected}"
  | emptyRow rank row => s!"rank {rank} row {row} has no progress columns"
  | notMonotone => "rank layers are not monotone"

namespace Game

variable {sp : Space} (g : Game sp)

/-- The number of rows: one for each assumption. -/
def numRows : Nat := g.assumptions.length

/-- The number of ranks. -/
def numRanks : Nat := g.ranks.length

/-- The position of the guarantee that a rank keeps violated. -/
def violatedGuarantee? (rank : Nat) : Option Nat :=
  match g.guarantees.length with
  | 0 => none
  | n + 1 => some (rank % (n + 1))

/-! ## The shape of a game -/

/-- A fault of the row marker. -/
def markerFault? : Option ShapeFault :=
  if sp.registry.length ≤ g.marker.index || g.marker.isPrimed then
    some (.markerNotCurrent g.marker)
  else
    match sp.registry.declaration? g.marker with
    | none => some (.markerNotCurrent g.marker)
    | some v =>
      if v.role != .aux || v.size != g.numRows then some (.markerUnfit v.name g.numRows)
      else if [g.initial, g.envTrans, g.sysTrans].any fun s ↦ s.support.contains g.marker then
        some (.markerMentioned v.name)
      else none

/-- A fault in the layers of progress of one rank. -/
def matrixFault? (rank : Nat) (matrix : List (List (StateSet sp))) : Option ShapeFault :=
  if matrix.length != g.numRows then some (.rowCount rank matrix.length g.numRows)
  else (matrix.findIdx? (·.isEmpty)).map (.emptyRow rank)

/-- A fault in the layers of progress. -/
def progressFault? : Option ShapeFault :=
  if g.progress.length != g.ranks.length then
    some (.matrixCount g.ranks.length g.progress.length)
  else g.progress.zipIdx.findSome? fun (matrix, rank) ↦ g.matrixFault? rank matrix

/-- A fault in the ranks. -/
def rankFault? : Option ShapeFault :=
  if (g.ranks.zip g.ranks.tail).all fun (s, t) ↦ s.subset t then none else some .notMonotone

/-- The first fault of the shape of a game. -/
def shapeFault? : Option ShapeFault :=
  if g.numRows = 0 then some .noAssumption
  else g.markerFault? <|> g.progressFault? <|> g.rankFault?

end Game

end JusticeViolation

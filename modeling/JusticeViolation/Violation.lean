import JusticeViolation.Memo.Document

/-!
# Violations

A construction that cannot go on says why. Most causes mean that the layers of the memo do not
describe a winning strategy: a path that finds no next step, a cycle that leaves out a row, a step
back into a rank that is done. That the environment does not win at all is a result rather than a
violation, and `BuildFault` keeps the two apart.
-/

namespace JusticeViolation

/-- A cause for which a construction breaks off. -/
inductive Violation
  | malformedMemo (fault : MemoFault)
  | pathStuck (rank row column : Nat)
  /-- A path whose points come round again and again without closing a cycle. -/
  | pathEndless (rank row column : Nat)
  | cycleSkipsRows (rank row column : Nat) (visited : List Nat) (rows : Nat)
  | nonConsecutiveAssumptions (rank source target : Nat)
  | decomposedSuccessor (rank target : Nat)
deriving DecidableEq, Repr

/-- A list of numbers in brackets. -/
def bracketed (ns : List Nat) : String := "[" ++ ", ".intercalate (ns.map toString) ++ "]"

/-- The explanation shown to a user. -/
def Violation.message : Violation → String
  | malformedMemo fault => s!"malformed memo: {fault.message}"
  | pathStuck rank row column =>
    s!"path through rank {rank} is stuck at cell ({row}, {column}) without closing a cycle"
  | pathEndless rank row column =>
    s!"path through rank {rank} returns to cell ({row}, {column}) without closing a cycle"
  | cycleSkipsRows rank row column visited rows =>
    s!"cycle in rank {rank} starting at cell ({row}, {column}) visits rows {bracketed visited} " ++
      s!"of {rows}"
  | nonConsecutiveAssumptions rank source target =>
    s!"assumption subgraph of rank {rank} has an edge from row {source} to non-consecutive " ++
      s!"row {target}"
  | decomposedSuccessor rank target =>
    s!"rank {rank} has a successor in rank {target}, which is already decomposed"

/-- A cause for which there is no graph. -/
inductive BuildFault
  /-- The environment does not win. -/
  | realizable
  | violation (cause : Violation)
deriving DecidableEq, Repr

/-- The explanation shown to a user. -/
def BuildFault.message : BuildFault → String
  | realizable =>
    "No initial state is winning for the environment; the specification is realizable"
  | violation cause => s!"Structural invariant violated: {cause.message}"

end JusticeViolation

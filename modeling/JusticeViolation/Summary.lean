import JusticeViolation.Memo.Encoding
import JusticeViolation.Game.Moves

/-!
# Summaries of a memo

A summary shows the variables of a memo and the shape of its solution, without constructing
anything.
-/

namespace JusticeViolation

/-- A rank, as summarized. -/
structure RankSummary where
  rank : Nat
  states : Nat
  /-- The number of layers in each row. -/
  columns : List Nat
deriving DecidableEq, Repr

/-- A summary of a memo. -/
structure Summary where
  declared : List Variable
  initialStates : Nat
  assumptions : List Justice
  guarantees : List Justice
  ranks : List RankSummary

namespace Summary

/-- The summary of a game. -/
def ofGame {sp : Space} (g : Game sp) : Summary where
  declared := sp.registry.declared
  initialStates := g.initial.count g.stateIds
  assumptions := g.assumptions
  guarantees := g.guarantees
  ranks := (g.ranks.zip g.progress).zipIdx.map fun ((states, rows), rank) ↦
    ⟨rank, states.count g.stateIds, rows.map (·.length)⟩

/-! ## As JSON -/

/-- The JSON form of a variable. -/
def variableToJson (v : Variable) : Json :=
  .object [("name", .text v.name), ("role", .text v.role.name),
    ("values", .list (v.values.map Json.text))]

/-- The JSON form of a rank. -/
def rankToJson (r : RankSummary) : Json :=
  .object [("rank", .nat r.rank), ("states", .nat r.states),
    ("columns", .list (r.columns.map Json.nat))]

/-- The JSON form of a summary. -/
def toJson (s : Summary) : Json :=
  .object [
    ("variables", .list (s.declared.map variableToJson)),
    ("initial_states", .nat s.initialStates),
    ("env_justices", .list (s.assumptions.map Justice.toJson)),
    ("sys_justices", .list (s.guarantees.map Justice.toJson)),
    ("ranks", .list (s.ranks.map rankToJson))]

/-! ## As text -/

/-- The identifiers of justices, in one line. -/
def justiceIds (js : List Justice) : String := ", ".intercalate (js.map (·.id))

/-- The lines of a summary. -/
def lines (s : Summary) : List String :=
  "Variables:" ::
    s.declared.map (fun v ↦ s!"  {v.name} ({v.role.label}): " ++ ", ".intercalate v.values) ++
    [s!"Initial states: {s.initialStates}",
      s!"Environment justices: {justiceIds s.assumptions}",
      s!"System justices: {justiceIds s.guarantees}",
      s!"Ranks: {s.ranks.length}"] ++
    s.ranks.map fun r ↦
      let columns := ", ".intercalate (r.columns.map toString)
      s!"  rank {r.rank}: {r.states} states, columns per row [{columns}]"

/-- The text of a summary. -/
def text (s : Summary) : String := String.join (s.lines.map (· ++ "\n"))

end Summary

end JusticeViolation

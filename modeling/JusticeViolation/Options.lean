import JusticeViolation.Json.Decode

/-!
# Options of a construction
-/

namespace JusticeViolation

/-- What is made beside the bare graph. -/
structure Options where
  /-- An assumption graph for every cycle. -/
  assumptionGraphs : Bool := true
  /-- The facts of nodes and edges. -/
  invariants : Bool := true
  /-- Chains of attractors merged. -/
  mergeAttractors : Bool := false
deriving DecidableEq, Repr

namespace Options

/-- The JSON form of options. -/
def toJson (o : Options) : Json :=
  .object [("assumption_graphs", .bool o.assumptionGraphs), ("invariants", .bool o.invariants),
    ("merge_attractors", .bool o.mergeAttractors)]

/-- Decode options; what is left out has its default. -/
def ofJson? (v : Json) : Option Options := do
  match ← v.fields? ["assumption_graphs", "invariants", "merge_attractors"] with
  | [assumptionGraphs, invariants, mergeAttractors] =>
    return {
      assumptionGraphs := ← Json.optional true Json.bool? assumptionGraphs
      invariants := ← Json.optional true Json.bool? invariants
      mergeAttractors := ← Json.optional false Json.bool? mergeAttractors }
  | _ => none

end Options

end JusticeViolation

import JusticeViolation.Construction
import JusticeViolation.Memo.Encoding

/-!
# Reports on a graph

A report is what is shown of a justice violation graph: instead of sets it holds the number of
states of each node and some of them as samples. The row marker is left out of both. The same
report can be written as JSON or as text. Of a game that the environment does not win there is a
report without nodes.
-/

namespace JusticeViolation

/-- A group of an assumption graph, as reported. -/
structure GroupReport where
  row : Nat
  assumption : String
  stateCount : Nat
deriving DecidableEq, Repr

/-- An assumption graph, as reported. -/
structure AssumptionReport where
  groups : List GroupReport
  edges : List (Nat × Nat)
deriving DecidableEq, Repr

/-- A node, as reported. -/
structure NodeReport where
  id : Nat
  kind : NodeKind
  rank : Option Nat
  /-- The guarantee that the rank keeps violated. -/
  violated : Option String
  stateCount : Nat
  samples : List (List Fact)
  facts : List Fact
  assumptions : Option AssumptionReport
deriving DecidableEq, Repr

/-- A report on a graph. -/
structure Report where
  realizable : Bool
  options : Options
  assumptions : List Justice
  guarantees : List Justice
  /-- How many nodes there are of each kind that occurs. -/
  totals : List (NodeKind × Nat)
  nodes : List NodeReport
  edges : List Edge
deriving DecidableEq, Repr

namespace Report

/-- The version of the form of reports. -/
def schemaVersion : Nat := 1

/-- The report on the node of a number. -/
def node? (r : Report) (id : Nat) : Option NodeReport := r.nodes.find? (·.id == id)

/-! ## From a graph -/

variable {sp : Space} (g : Game sp)

/-- Some states of a set, as values of the variables of the game. -/
def samples (s : StateSet sp) (limit : Nat) : List (List Fact) :=
  (s.enumerate g.stateIds limit).map fun values ↦
    (g.stateIds.zip values).map fun (x, value) ↦
      ⟨sp.registry.name x, sp.registry.valueName x value⟩

/-- The report on an assumption graph. -/
def ofAssumptions (a : AssumptionGraph sp) : AssumptionReport where
  groups := a.groups.map fun group ↦
    ⟨group.row, group.assumption.id, group.states.count g.stateIds⟩
  edges := a.edges

/-- The report on a node. -/
def ofNode (limit : Nat) (n : Node sp) : NodeReport where
  id := n.id
  kind := n.kind
  rank := n.rank
  violated := do
    let j ← g.guarantees[← g.violatedGuarantee? (← n.rank)]?
    return j.id
  stateCount := (g.strip n.states).count g.stateIds
  samples := samples g (g.strip n.states) limit
  facts := n.facts
  assumptions := n.assumptions.map (ofAssumptions g)

/-- How often each kind occurs, kinds that do not occur left out. -/
def countKinds (kinds : List NodeKind) : List (NodeKind × Nat) :=
  (NodeKind.all.map fun kind ↦ (kind, kinds.count kind)).filter fun t ↦ t.2 != 0

/-- The report on a graph, with at most `limit` samples for each node. -/
def ofGraph (graph : Graph sp) (o : Options) (limit : Nat) : Report where
  realizable := false
  options := o
  assumptions := g.assumptions
  guarantees := g.guarantees
  totals := countKinds (graph.nodes.map (·.kind))
  nodes := graph.nodes.map (ofNode g limit)
  edges := graph.edges

/-- The report on a game that the environment does not win. -/
def ofRealizable (o : Options) : Report where
  realizable := true
  options := o
  assumptions := g.assumptions
  guarantees := g.guarantees
  totals := []
  nodes := []
  edges := []

end Report

/-! ## As JSON -/

/-- The JSON form of a pair of numbers. -/
def pairToJson (p : Nat × Nat) : Json := .list [.nat p.1, .nat p.2]

/-- The JSON form of a value that may be missing. -/
def Json.ofOption {α : Type} (encode : α → Json) : Option α → Json
  | none => .null
  | some a => encode a

/-- The JSON form of a fact. -/
def Fact.toJson (f : Fact) : Json := .object [("var", .text f.name), ("value", .text f.value)]

/-- The JSON form of an edge. -/
def Edge.toJson (e : Edge) : Json :=
  .object [("from", .nat e.source), ("to", .nat e.target),
    ("invariants", .list (e.facts.map Fact.toJson))]

namespace Report

/-- The JSON form of the report on an assumption graph. -/
def assumptionsToJson (a : AssumptionReport) : Json :=
  .object [
    ("nodes", .list (a.groups.map fun group ↦
      .object [("row", .nat group.row), ("assumption", .text group.assumption),
        ("state_count", .nat group.stateCount)])),
    ("edges", .list (a.edges.map pairToJson))]

/-- The JSON form of a sample: the values by the names of their variables. -/
def sampleToJson (sample : List Fact) : Json :=
  .object (sample.map fun f ↦ (f.name, .text f.value))

/-- The JSON form of the report on a node. -/
def nodeToJson (n : NodeReport) : Json :=
  .object <|
    [("id", .nat n.id), ("kind", .text n.kind.key), ("rank", Json.ofOption .nat n.rank),
      ("violated_justice", Json.ofOption .text n.violated),
      ("state_count", .nat n.stateCount),
      ("sample_states", .list (n.samples.map sampleToJson)),
      ("invariants", .list (n.facts.map Fact.toJson))] ++
    (n.assumptions.map fun a ↦ ("assumptions", assumptionsToJson a)).toList

/-- The JSON form of a report. -/
def toJson (r : Report) : Json :=
  .object [
    ("schema_version", .nat schemaVersion),
    ("realizable", .bool r.realizable),
    ("options", r.options.toJson),
    ("env_justices", .list (r.assumptions.map Justice.toJson)),
    ("sys_justices", .list (r.guarantees.map Justice.toJson)),
    ("totals", .object (r.totals.map fun t ↦ (t.1.key, .nat t.2))),
    ("nodes", .list (r.nodes.map nodeToJson)),
    ("edges", .list (r.edges.map Edge.toJson))]

/-! ## As text -/

/-- The lines about a node. -/
def nodeLines (n : NodeReport) : List String :=
  let rank := (n.rank.map toString).getD "-"
  let violated := (n.violated.map fun id ↦ s!" violates={id}").getD ""
  let facts :=
    if n.facts.isEmpty then []
    else ["    invariants: " ++ ", ".intercalate (n.facts.map Fact.text)]
  let assumptions := n.assumptions.toList.map fun a ↦
    let order := ", ".intercalate (a.edges.map fun e ↦ s!"{e.1}->{e.2}")
    s!"    assumptions: {a.groups.length} groups, order [{order}]"
  s!"  {nodeName n.id} {n.kind.label} rank={rank} states={n.stateCount}{violated}" ::
    facts ++ assumptions

/-- The lines of a report. -/
def lines (r : Report) : List String :=
  ["JUSTICE VIOLATION GRAPH", s!"Schema version: {schemaVersion}"] ++
    if r.realizable then ["Specification is realizable: no justice violation graph"]
    else
      s!"Nodes: {r.nodes.length}, edges: {r.edges.length}" ::
        r.totals.map (fun t ↦ s!"  {t.1.label}: {t.2}") ++ r.nodes.flatMap nodeLines ++
        r.edges.map fun e ↦ s!"  {nodeName e.source} -> {nodeName e.target}"

/-- The text of a report. -/
def text (r : Report) : String := String.join (r.lines.map (· ++ "\n"))

end Report

end JusticeViolation

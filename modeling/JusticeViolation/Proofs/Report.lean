import JusticeViolation.Report
import JusticeViolation.Proofs.Construction.Apportionment
import JusticeViolation.Proofs.Fact
import JusticeViolation.Proofs.StateSet.Enumeration

/-!
# What a report says of a graph

What a report shows of a state are the values of the variables of the game, by name, so different
valuations look different. The number of states of a node and its samples are found in different
ways, one by a quotient and the other by enumeration, but both are about the same projection. It
does not matter that both are taken without tags: a projection that leaves out the row marker does
not see them.

The groups of a cycle divide its states and can be told apart by what is shown, so their numbers add
up to that of the cycle. This needs nothing but that the graph could be built.
-/

namespace JusticeViolation

variable {sp : Space} {g : Game sp} {o : Options}

namespace Report

/-! ## Totals -/

theorem mem_countKinds {kinds : List NodeKind} {kind : NodeKind} {count : Nat} :
    (kind, count) ∈ countKinds kinds ↔ count ≠ 0 ∧ count = kinds.count kind := by
  have hall : kind ∈ NodeKind.all := by cases kind <;> decide
  simp only [countKinds, List.mem_filter, List.mem_map, Prod.mk.injEq, bne_iff_ne]
  constructor
  · rintro ⟨⟨k, -, rfl, rfl⟩, hne⟩
    exact ⟨hne, rfl⟩
  · rintro ⟨hne, rfl⟩
    exact ⟨⟨kind, hall, rfl, rfl⟩, hne⟩

/-- Every node is counted once. -/
theorem sum_countKinds (kinds : List NodeKind) :
    ((countKinds kinds).map (·.2)).sum = kinds.length := by
  have hfilter : ∀ ts : List (NodeKind × Nat),
      ((ts.filter fun t ↦ t.2 != 0).map (·.2)).sum = (ts.map (·.2)).sum := fun ts ↦ by
    induction ts with
    | nil => rfl
    | cons t ts ih =>
      rw [List.filter_cons]
      split
      · rw [List.map_cons, List.map_cons, List.sum_cons, List.sum_cons, ih]
      · rename_i hzero
        rw [bne_iff_ne, not_not] at hzero
        rw [List.map_cons, List.sum_cons, hzero, Nat.zero_add, ih]
  rw [countKinds, hfilter]
  induction kinds with
  | nil => rfl
  | cons kind kinds ih =>
    simp only [NodeKind.all, List.map_cons, List.map_nil, List.sum_cons, List.sum_nil,
      List.length_cons] at ih ⊢
    rw [← ih]
    cases kind <;> simp <;> omega

/-! ## Samples -/

/-- What is shown of a state. -/
def shown (g : Game sp) (i : Nat) : List Fact :=
  g.stateIds.map fun x ↦ StateSet.factOf sp x (sp.digit i x)

/-- Different valuations look different. -/
theorem shown_eq_iff {i j : Nat} :
    shown g i = shown g j ↔ sp.digits i g.stateIds = sp.digits j g.stateIds := by
  rw [shown, shown, List.map_inj_left, Space.digits_eq_iff]
  refine forall₂_congr fun x hx ↦ ⟨fun h ↦ ?_, fun h ↦ congrArg _ h⟩
  have hids := (Game.mem_stateIds.mp hx).1
  exact (StateSet.factOf_inj hids hids (sp.digit_lt i x) (sp.digit_lt j x) h).2

/-- The sample for some values. -/
def sampleOf (g : Game sp) (values : List Nat) : List Fact :=
  (g.stateIds.zip values).map fun (x, value) ↦ StateSet.factOf sp x value

theorem sampleOf_digits (i : Nat) : sampleOf g (sp.digits i g.stateIds) = shown g i := by
  rw [sampleOf, StateSet.zip_digits, List.map_map]
  rfl

theorem samples_eq (g : Game sp) (s : StateSet sp) (limit : Nat) :
    samples g s limit = (s.enumerate g.stateIds limit).map (sampleOf g) := rfl

theorem mem_ids_of_mem_stateIds : ∀ x ∈ g.stateIds, x ∈ sp.registry.ids :=
  fun _ hx ↦ (Game.mem_stateIds.mp hx).1

variable {s : StateSet sp} {limit : Nat}

/-- The values of a sample extend to a member. -/
theorem exists_of_mem_samples {sample : List Fact} (h : sample ∈ samples g s limit) :
    ∃ values ∈ s.projection g.stateIds, sampleOf g values = sample := by
  obtain ⟨values, hvalues, rfl⟩ := List.mem_map.mp (samples_eq g s limit ▸ h)
  exact ⟨values, StateSet.mem_projection_of_mem_enumerate mem_ids_of_mem_stateIds hvalues, rfl⟩

/-- No two samples look the same. -/
theorem nodup_samples (g : Game sp) (s : StateSet sp) (limit : Nat) :
    (samples g s limit).Nodup := by
  rw [samples_eq]
  refine List.Nodup.map_on (fun values hvalues values' hvalues' heq ↦ ?_)
    (StateSet.nodup_enumerate mem_ids_of_mem_stateIds s limit)
  obtain ⟨i, -, rfl⟩ := StateSet.mem_projection.mp
    (StateSet.mem_projection_of_mem_enumerate mem_ids_of_mem_stateIds hvalues)
  obtain ⟨j, -, rfl⟩ := StateSet.mem_projection.mp
    (StateSet.mem_projection_of_mem_enumerate mem_ids_of_mem_stateIds hvalues')
  rw [sampleOf_digits, sampleOf_digits] at heq
  exact shown_eq_iff.mp heq

theorem length_samples (g : Game sp) (s : StateSet sp) (limit : Nat) :
    (samples g s limit).length = min limit (s.count g.stateIds) := by
  rw [samples, List.length_map, StateSet.length_enumerate mem_ids_of_mem_stateIds]

end Report

/-! ## Reports on nodes -/

/-- A report on a node counts its states, each shown at most once among the samples, and of these
there are as many as the limit allows. The groups of its assumptions have as many states in all. -/
structure NodeReport.Faithful (g : Game sp) (limit : Nat) (n : Node sp) (r : NodeReport) :
    Prop where
  id_eq : r.id = n.id
  kind_eq : r.kind = n.kind
  stateCount_eq : r.stateCount = (n.states.projection g.stateIds).card
  nodup_samples : r.samples.Nodup
  length_samples : r.samples.length = min limit r.stateCount
  exists_state : ∀ sample ∈ r.samples, ∃ i ∈ n.states, sample = Report.shown g i
  sum_groups : ∀ a, r.assumptions = some a → (a.groups.map (·.stateCount)).sum = r.stateCount

namespace Report

/-- A projection does not see tags. -/
theorem projection_strip (hs : g.Shaped) (s : StateSet sp) :
    (g.strip s).projection g.stateIds = s.projection g.stateIds := by
  refine StateSet.projection_forget (fun x hx ↦ List.mem_singleton.mp hx ▸ hs.marker_mem)
    fun x hx hmarker ↦ ?_
  exact (Game.mem_stateIds.mp hx).2.2 (List.mem_singleton.mp hmarker)

/-- **The report on a node** is faithful if its groups can be told apart. -/
theorem faithful_ofNode (hs : g.Shaped) {n : Node sp} (limit : Nat)
    (hgroups : ∀ a, n.assumptions = some a → n.Apportioned g a) :
    (ofNode g limit n).Faithful g limit n where
  id_eq := rfl
  kind_eq := rfl
  stateCount_eq := by
    rw [ofNode, StateSet.count_eq, projection_strip hs]
  nodup_samples := nodup_samples g _ limit
  length_samples := length_samples g _ limit
  exists_state := fun sample hsample ↦ by
    obtain ⟨values, hvalues, rfl⟩ := exists_of_mem_samples hsample
    rw [projection_strip hs] at hvalues
    obtain ⟨i, hi, rfl⟩ := StateSet.mem_projection.mp hvalues
    exact ⟨i, hi, sampleOf_digits i⟩
  sum_groups := fun r hr ↦ by
    obtain ⟨a, ha, rfl⟩ := Option.map_eq_some_iff.mp hr
    obtain ⟨hcover, hapart⟩ := hgroups a ha
    have hsum := StateSet.sum_count (t := g.strip n.states) (fun i ↦ by
      rw [← hcover]
      simp only [List.mem_map, exists_exists_and_eq_and]) hapart
    rw [List.map_map] at hsum
    rw [ofAssumptions, List.map_map]
    exact hsum

/-- **A report counts and samples faithfully.** In the report on a graph that is built, the reports
on the nodes are faithful, the totals are the numbers of nodes of each kind that occurs, and they
add up to the number of nodes. -/
theorem faithful_of_build {graph : Graph sp} (hb : g.build o = .ok graph) (limit : Nat) :
    List.Forall₂ (NodeReport.Faithful g limit) graph.nodes (ofGraph g graph o limit).nodes ∧
    (∀ kind count, (kind, count) ∈ (ofGraph g graph o limit).totals ↔
      count ≠ 0 ∧ count = (graph.nodes.map (·.kind)).count kind) ∧
    ((ofGraph g graph o limit).totals.map (·.2)).sum = graph.nodes.length := by
  have hs := Game.shaped_of_shapeFault?_eq_none (Game.shapeFault?_of_build hb)
  refine ⟨?_, fun _ _ ↦ mem_countKinds, ?_⟩
  · refine List.forall₂_map_right_iff.mpr (List.forall₂_same.mpr fun n hn ↦ ?_)
    exact faithful_ofNode hs limit fun a ha ↦ Game.apportioned_of_build hb hn ha
  · rw [ofGraph, sum_countKinds, List.length_map]

/-- In the game of turns the initial node and a cycle have four states each, of which three are
shown, and the cycle is divided into two halves. -/
theorem faithful_turns : ∃ graph, Game.turns.build { assumptionGraphs := true } = .ok graph ∧
    List.Forall₂ (NodeReport.Faithful Game.turns 3) graph.nodes
      (ofGraph Game.turns graph { assumptionGraphs := true } 3).nodes ∧
    (ofGraph Game.turns graph { assumptionGraphs := true } 3).nodes.map (fun r ↦
      (r.stateCount, r.samples.length, r.assumptions.map fun a ↦ a.groups.map (·.stateCount))) =
        [(4, 3, none), (4, 3, some [2, 2])] := by
  obtain ⟨graph, hb, hcounts⟩ := Game.exists_of_any_build (g := Game.turns)
    (o := { assumptionGraphs := true })
    (p := fun graph ↦ (ofGraph Game.turns graph { assumptionGraphs := true } 3).nodes.map (fun r ↦
      (r.stateCount, r.samples.length, r.assumptions.map fun a ↦ a.groups.map (·.stateCount))) =
        [(4, 3, none), (4, 3, some [2, 2])]) (by decide +kernel)
  exact ⟨graph, hb, (faithful_of_build hb 3).1, of_decide_eq_true hcounts⟩

end Report

end JusticeViolation

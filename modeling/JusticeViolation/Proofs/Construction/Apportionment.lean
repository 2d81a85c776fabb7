import JusticeViolation.Proofs.Construction.Assumptions
import JusticeViolation.Proofs.StateSet.Counting

/-!
# The groups of a cycle can be told apart

The groups of a cycle are disjoint as sets of valuations. What is shown of a state are the current
values of the variables of the game, without the row marker, and states of different groups differ
even in these. For a path that has been closed has left each of its points, and a point that is left
is narrowed to the states that have a committed choice, a set about current values alone. So
whether a point holds a state, tags aside, can be seen from what is shown of the state, and so can
the first point that holds it.

Nothing is assumed of the sets of the game. A start point may speak of next values if the initial
states do, but no point of a closed path does.
-/

namespace JusticeViolation

variable {sp : Space} {g : Game sp} {o : Options}

/-! ## Points of closed paths -/

namespace Maze

variable {m : Maze sp} {inner : StateSet sp} {seeds : List (Point sp)}

/-- A walk that has closed has left all its points. -/
theorem current_of_closed {seed : Point sp} {start : Nat}
    (h : (m.walk g inner seed).ending = .closed start) :
    ∀ p ∈ (m.walk g inner seed).points, p.states.Current := by
  obtain ⟨points, last, hpoints, hends⟩ := m.walk_induction (g := g)
    (P := fun _ points _ _ ↦ ∀ p ∈ points, p.states.Current)
    (fun hpoints hstep ↦ List.forall_mem_append.mpr ⟨hpoints, List.forall_mem_singleton.mpr
      (movers_eq hstep ▸ Game.current_domain (g := g) _)⟩)
    inner seed fun _ hp ↦ absurd hp List.not_mem_nil
  exact (hends.closed start h).1 ▸ hpoints

/-- All points of a tracing that has not broken off are about current values. -/
theorem current_of_mem_paths (hend : (m.trace g inner seeds).violation = none) {path : Path sp}
    (hpath : path ∈ (m.trace g inner seeds).paths) : ∀ p ∈ path.points, p.states.Current := by
  obtain ⟨w, hw, rfl⟩ := List.mem_map.mp hpath
  obtain ⟨start, hstart⟩ := closed_trace hend w hw
  have hstable : m.Stable g fun _ ↦ True :=
    ⟨fun _ _ h ↦ h, fun _ _ _ _ _ ↦ ⟨trivial, fun _ _ ↦ trivial⟩⟩
  exact hstable.forall_walks
    (Q := fun w ↦ ∀ start, w.ending = .closed start → ∀ p ∈ w.points, p.states.Current)
    (fun _ _ _ _ h ↦ current_of_closed h) (fun _ _ ↦ trivial) w hw start hstart

end Maze

/-! ## What is shown of a state -/

namespace Game

variable {i j : Nat}

theorem mem_stateIds {x : VarId} :
    x ∈ g.stateIds ↔ x ∈ sp.registry.ids ∧ x.isPrimed = false ∧ x ≠ g.marker := by
  rw [stateIds, List.mem_filter, Registry.mem_currentIds, bne_iff_ne, and_assoc]

/-- What is shown of a state are its current values, tags aside. -/
theorem digits_stateIds_eq_iff :
    sp.digits i g.stateIds = sp.digits j g.stateIds ↔ sp.bare g.marker i = sp.bare g.marker j := by
  rw [Space.digits_eq_iff, Space.bare_eq_iff]
  constructor
  · intro h x hx hm
    by_cases hids : x ∈ sp.registry.ids
    · exact h x (mem_stateIds.mpr ⟨hids, hx, hm⟩)
    · rw [Space.digit_of_not_mem hids, Space.digit_of_not_mem hids]
  · intro h x hx
    obtain ⟨-, hcurrent, hm⟩ := mem_stateIds.mp hx
    exact h x hcurrent hm

/-! ## Groups -/

/-- A state that reads as one of a row does belongs to the same row. -/
theorem ClaimedBy.of_digits_eq (hs : g.Shaped) {cycle : StateSet sp} {points : List (Point sp)}
    {row : Nat} (hcurrent : ∀ p ∈ points, p.states.Current) (h : g.ClaimedBy cycle points row i)
    (hj : j ∈ g.strip cycle) (hij : sp.digits i g.stateIds = sp.digits j g.stateIds) :
    g.ClaimedBy cycle points row j := by
  obtain ⟨hi, before, p, after, rfl, hrow, hp, hbefore⟩ := h
  have hshown : ∀ q ∈ before ++ p :: after, i ∈ g.strip q.states ↔ j ∈ g.strip q.states :=
    fun q hq ↦ (hs.untagged_strip (hcurrent q hq)).mem_iff_of_bare_eq (StateSet.lt_size hi)
      (StateSet.lt_size hj) (digits_stateIds_eq_iff.mp hij)
  refine ⟨hj, before, p, after, rfl, hrow, ?_, fun q hq hjq ↦ hbefore q hq ?_⟩
  · exact (hshown p (List.mem_append_right _ List.mem_cons_self)).mp hp
  · exact (hshown q (List.mem_append_left _ hq)).mpr hjq

/-- **The groups of closed paths** can be told apart. -/
theorem pairwise_apartOn_groups (hs : g.Shaped) {rank : Nat} {cycle inner : StateSet sp}
    {paths : List (Path sp)} (hcurrent : ∀ path ∈ paths, ∀ p ∈ path.points, p.states.Current)
    {a : AssumptionGraph sp} (h : g.assumptionGraph rank cycle inner paths = .ok a) :
    (a.groups.map (·.states)).Pairwise (StateSet.ApartOn g.stateIds) := by
  obtain ⟨-, rfl⟩ := assumptionGraph_eq_ok h
  obtain ⟨left, hdivided⟩ := divided_shares g cycle (claimants paths)
  have hpoints : ∀ p ∈ claimants paths, p.states.Current := fun p hp ↦ by
    obtain ⟨path, hpath, hp⟩ := mem_claimants.mp hp
    exact hcurrent path hpath p hp
  rw [List.map_map]
  refine List.pairwise_map.mpr (hdivided.ascending.imp_of_mem ?_)
  intro s t hmem hmem' hlt i hi j hj hij
  have hclaim := (hdivided.mem_share_iff hmem i).mp hi
  have hclaim' := (hdivided.mem_share_iff hmem' j).mp hj
  have hrow := (hclaim.of_digits_eq hs hpoints hclaim'.1 hij).row_eq hclaim'
  exact Nat.ne_of_lt hlt hrow

end Game

/-- The groups of a node hold its states, tags aside, and can be told apart. -/
structure Node.Apportioned (g : Game sp) (n : Node sp) (a : AssumptionGraph sp) : Prop where
  cover : ∀ i, (∃ G ∈ a.groups, i ∈ G.states) ↔ i ∈ g.strip n.states
  apart : (a.groups.map (·.states)).Pairwise (StateSet.ApartOn g.stateIds)

/-! ## Through the construction -/

/-- Nothing but a cycle has assumptions. -/
theorem Node.body_of_assumptions {n : Node sp} {a : AssumptionGraph sp}
    (h : n.assumptions = some a) : n.body = .cycle (some a) := by
  rw [Node.assumptions] at h
  cases hbody : n.body with
  | cycle b =>
    rw [hbody] at h
    exact congrArg _ h
  | initial | attractorFromCycle | attractorNotFromCycle =>
    rw [hbody] at h
    cases h

theorem Node.kind_of_assumptions {n : Node sp} {a : AssumptionGraph sp}
    (h : n.assumptions = some a) : n.kind = .cycle := by
  rw [Node.kind, Node.body_of_assumptions h]
  rfl

namespace Decomposition

variable {ranking : Ranking sp} {d d' : Decomposition sp}

/-- **Taking up a rank** apportions the states of its cycle. -/
theorem apportioned_of_process (hs : g.Shaped) {item : Item sp}
    (hok : d.process g o ranking item = .ok d')
    (h : ∀ n ∈ d.graph.nodes, ∀ a, n.assumptions = some a → n.Apportioned g a) :
    ∀ n ∈ d'.graph.nodes, ∀ a, n.assumptions = some a → n.Apportioned g a := by
  intro n hn a ha
  obtain ⟨hend, -⟩ := explored_of_process hok
  rcases exists_part_of_mem_process hok hn with hn | ⟨id, part, body, hpart, -, rfl⟩
  · exact h n hn a ha
  · cases hpart with
    | approach => cases ha
    | descent => cases ha
    | @cycle body hbody =>
      have hassumptions := Node.body_of_assumptions ha
      rcases cycleBody_eq_ok hbody with ⟨-, b, hgraph, rfl⟩ | ⟨-, rfl⟩
      · cases hassumptions
        exact ⟨cover_split hs hgraph, Game.pairwise_apartOn_groups hs
          (fun _ hpath ↦ Maze.current_of_mem_paths hend hpath) hgraph⟩
      · cases hassumptions

/-- The start has no cycle, and every rank keeps the groups apart. -/
theorem apportioned_of_decompose (hs : g.Shaped) (h : g.decompose o ranking = .ok d) :
    ∀ n ∈ d.graph.nodes, ∀ a, n.assumptions = some a → n.Apportioned g a := by
  refine run_preserves (P := fun d ↦ ∀ n ∈ d.graph.nodes, ∀ a, n.assumptions = some a →
      n.Apportioned g a) (fun _ hok ih ↦ apportioned_of_process hs hok ih)
    (start_induction (P := fun d ↦ ∀ n ∈ d.graph.nodes, ∀ a, n.assumptions = some a →
      n.Apportioned g a) (fun n hn a ha ↦ ?_) fun _ _ _ ih ↦ ih) h
  rw [List.mem_singleton.mp hn] at ha
  cases ha

end Decomposition

/-- **The groups of a graph that is built** hold the states of their nodes and can be told apart. -/
theorem Game.apportioned_of_build {graph : Graph sp} (hb : g.build o = .ok graph) {n : Node sp}
    (hn : n ∈ graph.nodes) {a : AssumptionGraph sp} (ha : n.assumptions = some a) :
    n.Apportioned g a := by
  have hs := shaped_of_shapeFault?_eq_none (shapeFault?_of_build hb)
  obtain ⟨ranking, d, hdec, m, hm, hbody, hstates⟩ :=
    exists_cycle_of_build hb hn (Node.kind_of_assumptions ha)
  have hma : m.assumptions = some a := by rw [Node.assumptions, ← hbody, ← Node.assumptions, ha]
  have hparts := Decomposition.apportioned_of_decompose hs hdec m hm a hma
  exact ⟨fun i ↦ hstates ▸ hparts.cover i, hparts.apart⟩

end JusticeViolation

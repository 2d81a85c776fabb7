import JusticeViolation.Proofs.Decomposition.Queue
import JusticeViolation.Proofs.Graph.Basic
import JusticeViolation.Proofs.Split

/-!
# Decomposing one rank

Taking up a rank adds a node for each of its parts that is not empty, the edges around these, and
start points for the ranks that they lead to. Nothing that was awaiting a rank is lost: a state that
awaited the rank taken up now lies in a child of the node that led there, and a state that awaited
another rank still does. For a new node the same holds of all that its committed steps lead to.
-/

namespace JusticeViolation

variable {sp : Space} {g : Game sp} {ranking : Ranking sp}

open Decomposition in
/-- The node `n` is a part of the rank of `item`. -/
structure Node.From (g : Game sp) (ranking : Ranking sp) (n : Node sp) (item : Item sp) : Prop where
  ready : item.Ready g (lower ranking item.node)
  explored : (item.split g (lower ranking item.node)).tracing.violation = none
  rank_eq : n.rank = some item.node.rank
  mem_parts : n.states ∈ (item.split g (lower ranking item.node)).parts
  transitions_eq :
    n.transitions = (item.split g (lower ranking item.node)).tracing.inner ∩ n.states
  part_eq : n.states = (item.split g (lower ranking item.node)).part n.kind
  exists_mem : ∃ i, i ∈ n.states

namespace Node.From

variable {n : Node sp} {item : Item sp} (hg : g.Shaped) (ho : g.OfStates)
  (h : n.From g ranking item)

include hg ho h

omit hg ho in
theorem approach_eq (hkind : n.kind = .attractorNotFromCycle) :
    n.states = (item.split g (Decomposition.lower ranking item.node)).approach := by
  rw [h.part_eq, hkind, Split.part]

omit hg ho in
theorem cycle_eq (hkind : n.kind = .cycle) :
    n.states = (item.split g (Decomposition.lower ranking item.node)).cycle := by
  rw [h.part_eq, hkind, Split.part]

omit hg ho in
theorem descent_eq (hkind : n.kind = .attractorFromCycle) :
    n.states = (item.split g (Decomposition.lower ranking item.node)).descent := by
  rw [h.part_eq, hkind, Split.part]

theorem sound : (item.split g (Decomposition.lower ranking item.node)).Sound g item
    (Decomposition.lower ranking item.node) :=
  Item.Ready.sound_split hg ho h.ready h.explored

theorem current : n.states.Current := (sound hg ho h).current _ h.mem_parts

theorem mem_level {i : Nat} (hi : i ∈ n.states) : i ∈ g.level item.node.rank :=
  (sound hg ho h).mem_level _ h.mem_parts i hi

/-- Under any tag, a node holds states of the level of its rank only. -/
theorem level_of_mem_strip {i : Nat} (hi : i ∈ g.strip n.states) : i ∈ g.level item.node.rank :=
  hg.mem_of_mem_strip_of_subset (current hg ho h) (ho.untagged_level _)
    (fun _ hj ↦ mem_level hg ho h hj) hi

omit hg ho in
theorem mem_states {v : Nat} (hv : v ∈ n.transitions) : v ∈ n.states := by
  rw [h.transitions_eq] at hv
  exact (StateSet.mem_inter.mp hv).2

omit hg ho in
theorem mem_inner {v : Nat} (hv : v ∈ n.transitions) :
    v ∈ (item.split g (Decomposition.lower ranking item.node)).tracing.inner := by
  rw [h.transitions_eq] at hv
  exact (StateSet.mem_inter.mp hv).1

omit hg ho in
theorem mem_transitions {v : Nat} (hv : v ∈ n.states)
    (hin : v ∈ (item.split g (Decomposition.lower ranking item.node)).tracing.inner) :
    v ∈ n.transitions := by
  rw [h.transitions_eq]
  exact StateSet.mem_inter.mpr ⟨hin, hv⟩

/-- Every state of a part has a committed choice. -/
theorem domain_eq : g.domain n.transitions = n.states := by
  refine StateSet.ext_mem fun i ↦ ?_
  rw [Game.mem_domain]
  constructor
  · rintro ⟨hi, v, hv, hvi⟩
    exact ((current hg ho h).mem_iff_of_now_eq (StateSet.lt_size hv) hi hvi).mp (mem_states h hv)
  · intro hi
    obtain ⟨hlt, v, hv, hvi⟩ :=
      Game.mem_domain.mp ((sound hg ho h).committed _ h.mem_parts i hi)
    exact ⟨hlt, v, mem_transitions h
      (((current hg ho h).mem_iff_of_now_eq (StateSet.lt_size hv) hlt hvi).mpr hi) hv, hvi⟩

/-- Committed steps do not leave the rank upwards. -/
theorem next_mem_rank {v : Nat} (hv : v ∈ n.transitions) (hsys : v ∈ g.sysTrans) :
    sp.next v ∈ g.rank item.node.rank := by
  have hsound := sound hg ho h
  rcases hsound.from_part h.mem_parts (mem_states h hv) (mem_inner h hv) hsys with
    ⟨states, hs, hnext⟩ | hlower
  · have hlevel := hg.mem_of_mem_strip_of_subset (hsound.current states hs) (ho.untagged_level _)
      (hsound.mem_level states hs) hnext
    exact (Game.mem_level.mp hlevel).1
  · obtain ⟨q, hq, hnext⟩ :=
      Game.Shaped.exists_level_of_mem_below (h.ready.lower_subset _ hlower)
    exact hg.rank_mono (Nat.le_of_lt hq) h.ready.rank_lt (Game.mem_level.mp hnext).1

theorem image_subset {i : Nat} (hi : i ∈ g.strip (g.image n.states n.transitions)) :
    i ∈ g.rank item.node.rank := by
  refine hg.mem_of_mem_strip_of_subset (Game.current_image _ _) (ho.untagged_rank _)
    (fun j hj ↦ ?_) hi
  obtain ⟨hlt, v, -, hv, hsys, hvj⟩ := Game.mem_image.mp hj
  refine ((ho.untagged_rank _).current.mem_iff_of_now_eq (sp.next_lt v) hlt ?_).mp
    (next_mem_rank hg ho h hv hsys)
  rw [hvj, Space.now_now]

end Node.From

namespace Decomposition

variable {d : Decomposition sp}

/-! ## New nodes -/

/-- The decomposition `d'` is `d` with nodes for one part of a rank. -/
structure Emits (rank : Nat) (inner states : StateSet sp) (body : NodeBody sp)
    (d d' : Decomposition sp) (news : List (Node sp)) : Prop where
  wellFormed : d'.graph.WellFormed
  nodes_eq : d'.graph.nodes = d.graph.nodes ++ news
  edges_eq : d'.graph.edges = d.graph.edges
  queue_eq : d'.queue = d.queue
  done_eq : d'.done = d.done
  of_part : ∀ n ∈ news, n.rank = some rank ∧ n.states = states ∧ n.transitions = inner ∩ states ∧
    n.body = body ∧ ∃ i, i ∈ n.states
  exists_node : (∃ i, i ∈ states) → ∃ n, n ∈ news
  single : news.Pairwise fun _ _ ↦ False
  log_eq : d'.log = (news.map fun n ↦ .nodeEmitted n.id rank n.kind).reverse ++ d.log

theorem emits_emit (hwf : d.graph.WellFormed) (rank : Nat) (inner states : StateSet sp)
    (body : NodeBody sp) (hbody : body.kind ≠ .initial) (emitted : List Nat) :
    ∃ news, Emits rank inner states body d (emit rank inner states body (d, emitted)).1 news ∧
      (emit rank inner states body (d, emitted)).2 = emitted ++ news.map (·.id) := by
  unfold emit
  dsimp only
  split
  · rename_i hempty
    rw [StateSet.isEmpty_iff] at hempty
    refine ⟨[], ⟨hwf, (List.append_nil _).symm, rfl, rfl, rfl,
      fun n hn ↦ absurd hn List.not_mem_nil, fun ⟨i, hi⟩ ↦ absurd hi (hempty i), .nil, rfl⟩, ?_⟩
    rw [List.map_nil, List.append_nil]
  · rename_i hne
    rw [Bool.not_eq_true, StateSet.isEmpty_eq_false_iff] at hne
    exact ⟨[⟨d.graph.nextId, some rank, states, inner ∩ states, [], body⟩],
      ⟨hwf.addNode rfl hbody, hwf.nodes_addNode rfl, rfl, rfl, rfl,
        fun n hn ↦ by rw [List.mem_singleton.mp hn]; exact ⟨rfl, rfl, rfl, rfl, hne⟩,
        fun _ ↦ ⟨_, List.mem_singleton_self _⟩, List.pairwise_singleton _ _, rfl⟩, rfl⟩

theorem mem_laterPairs_append {front behind : List Nat} {a b : Nat} (ha : a ∈ front)
    (hb : b ∈ behind) : (a, b) ∈ laterPairs (front ++ behind) := by
  induction front with
  | nil => exact absurd ha List.not_mem_nil
  | cons n front ih =>
    rw [List.cons_append, laterPairs]
    rcases List.mem_cons.mp ha with rfl | ha
    · exact List.mem_append_left _ (List.mem_map.mpr ⟨b, List.mem_append_right _ hb, rfl⟩)
    · exact List.mem_append_right _ (ih ha)

theorem mem_edgeCandidates {sources emitted : List Nat} {a b : Nat} :
    (a, b) ∈ edgeCandidates sources emitted ↔
      a ∈ sources ∧ b ∈ emitted ∨ (a, b) ∈ laterPairs emitted := by
  simp only [edgeCandidates, List.mem_append, List.mem_flatMap, List.mem_map, Prod.mk.injEq]
  refine or_congr_left ⟨?_, fun ⟨ha, hb⟩ ↦ ⟨b, hb, a, ha, rfl, rfl⟩⟩
  rintro ⟨b, hb, a, ha, rfl, rfl⟩
  exact ⟨ha, hb⟩

theorem foldl_report (d : Decomposition sp) (events : List Event) :
    (events.foldl report d).graph = d.graph ∧ (events.foldl report d).queue = d.queue ∧
      (events.foldl report d).done = d.done := by
  induction events generalizing d with
  | nil => exact ⟨rfl, rfl, rfl⟩
  | cons e events ih =>
    rw [List.foldl_cons]
    exact ih (d.report e)

section CycleBody

variable {o : Options} {rank : Nat} {s : Split sp}

/-- A cycle has the assumption graph that was computed, or none as none was asked for. -/
theorem cycleBody_eq_ok {body : NodeBody sp} (h : cycleBody g o rank s = .ok body) :
    ((o.assumptionGraphs && !s.cycle.isEmpty) = true ∧ ∃ a,
      g.assumptionGraph rank s.cycle s.tracing.inner s.tracing.paths = .ok a ∧
        body = .cycle (some a)) ∨
      (o.assumptionGraphs && !s.cycle.isEmpty) = false ∧ body = .cycle none := by
  unfold cycleBody at h
  split at h
  · rename_i hasked
    cases ha : g.assumptionGraph rank s.cycle s.tracing.inner s.tracing.paths with
    | error v =>
      rw [ha] at h
      cases h
    | ok a =>
      rw [ha] at h
      exact Or.inl ⟨hasked, a, rfl, (Except.ok.inj h).symm⟩
  · rename_i hasked
    exact Or.inr ⟨Bool.not_eq_true _ ▸ hasked, (Except.ok.inj h).symm⟩

/-- A cycle is refused for its assumption graph. -/
theorem cycleBody_eq_error {v : Violation} (h : cycleBody g o rank s = .error v) :
    g.assumptionGraph rank s.cycle s.tracing.inner s.tracing.paths = .error v := by
  unfold cycleBody at h
  split at h
  · cases ha : g.assumptionGraph rank s.cycle s.tracing.inner s.tracing.paths with
    | error w =>
      rw [ha] at h
      rw [Except.error.inj h]
    | ok a =>
      rw [ha] at h
      cases h
  · cases h

theorem kind_cycleBody {body : NodeBody sp} (h : cycleBody g o rank s = .ok body) :
    body.kind = .cycle := by
  rcases cycleBody_eq_ok h with ⟨-, a, -, rfl⟩ | ⟨-, rfl⟩ <;> rfl

end CycleBody

/-! ## What a decomposition under way promises -/

/-- The state `i` that the node `id` leads to lies in one of its children, or awaits its rank. -/
def Served (g : Game sp) (d : Decomposition sp) (id i : Nat) : Prop :=
  (∃ m ∈ d.graph.nodes, d.graph.Joins id m.id ∧ i ∈ g.strip m.states) ∨ d.Awaits id i

/-- The nodes of a decomposition are parts of ranks that are not below `bound`, one item for each
rank; the queue is below. -/
structure Sound (g : Game sp) (ranking : Ranking sp) (bound : Nat) (d : Decomposition sp) :
    Prop extends Queued g ranking bound d where
  wellFormed : d.graph.WellFormed
  initial_eq : ∀ n ∈ d.graph.nodes, n.id = Graph.initialId →
    n.states = g.initial ∧ n.transitions = ∅
  origin : ∃ items : Nat → Item sp, ∀ n ∈ d.graph.nodes, n.id ≠ Graph.initialId →
    ∃ r, bound ≤ r ∧ (items r).node.rank = r ∧ n.From g ranking (items r)

theorem ready_of_mem_queue {bound : Nat} (h : g.Shaped) (ho : g.OfStates)
    (hr : g.ranking? = some ranking) (hq : d.Queued g ranking bound) {item : Item sp}
    (hitem : item ∈ d.queue) : item.Ready g (lower ranking item.node) where
  toFits := hq.fits item hitem
  rank_lt := Ranking.rank_lt_numRanks hr (hq.mem_nodes item hitem)
  untagged_lower := Ranking.untagged_lower h hr ho item.node
  lower_subset := fun _ hi ↦ Ranking.lower_subset h hr (hq.mem_nodes item hitem) hi

/-! ## The nodes of a rank -/

/-- What has been taken up and reported when the nodes of a rank are added. -/
def takeUp (g : Game sp) (ranking : Ranking sp) (item : Item sp) (d : Decomposition sp) :
    Decomposition sp :=
  let s := item.split g (lower ranking item.node)
  (s.tracing.events s.maze).foldl report
    ({ d with done := item.node.rank :: d.done }.report
      (.rankStarted item.node.rank item.starts.length))

theorem takeUp_spec (item : Item sp) (d : Decomposition sp) :
    (takeUp g ranking item d).graph = d.graph ∧ (takeUp g ranking item d).queue = d.queue ∧
      (takeUp g ranking item d).done = item.node.rank :: d.done := foldl_report _ _

/-- The decomposition with the nodes for the parts of a rank, and with the edges around them. -/
structure Extends (g : Game sp) (ranking : Ranking sp) (item : Item sp) (d d' : Decomposition sp)
    (emitted : List Nat) (na nc nd : List (Node sp)) : Prop where
  wellFormed : d'.graph.WellFormed
  nodes_eq : d'.graph.nodes = d.graph.nodes ++ (na ++ nc ++ nd)
  queue_eq : d'.queue = d.queue
  done_eq : d'.done = item.node.rank :: d.done
  emitted_eq : emitted = (na ++ nc ++ nd).map (·.id)
  approach : ∀ n ∈ na, n.From g ranking item ∧ n.kind = .attractorNotFromCycle
  cycle : ∀ n ∈ nc, n.From g ranking item ∧ n.kind = .cycle
  descent : ∀ n ∈ nd, n.From g ranking item ∧ n.kind = .attractorFromCycle
  exists_approach : (∃ i, i ∈ (item.split g (lower ranking item.node)).approach) → ∃ n, n ∈ na
  exists_cycle : (∃ i, i ∈ (item.split g (lower ranking item.node)).cycle) → ∃ n, n ∈ nc
  exists_descent : (∃ i, i ∈ (item.split g (lower ranking item.node)).descent) → ∃ n, n ∈ nd
  ordered : (na ++ nc ++ nd).Pairwise fun n m ↦ n.kind.place < m.kind.place
  log_eq : d'.log = ((na ++ nc ++ nd).map fun n ↦ .nodeEmitted n.id item.node.rank n.kind).reverse
    ++ (takeUp g ranking item d).log
  joins : ∀ a b, d'.graph.Joins a b ↔ d.graph.Joins a b ∨
    ((a, b) ∈ edgeCandidates item.sources emitted ∧ a ≠ b ∧
      ∃ s, d'.graph.edgeStates? g a b = some s ∧ ∃ i, i ∈ s)

/-- The nodes and edges of one rank, before its successors are queued. -/
def extend (g : Game sp) (ranking : Ranking sp) (item : Item sp) (body : NodeBody sp)
    (d : Decomposition sp) : Decomposition sp × List Nat :=
  let s := item.split g (lower ranking item.node)
  let emit := emit item.node.rank s.tracing.inner
  let (d, emitted) := emit s.descent .attractorFromCycle
    (emit s.cycle body (emit s.approach .attractorNotFromCycle (d, [])))
  (d.connectAll g item.sources emitted, emitted)

private theorem emit_spec (rank : Nat) (inner states : StateSet sp) (body : NodeBody sp)
    (e : Decomposition sp × List Nat) : (emit rank inner states body e).1.queue = e.1.queue ∧
      (emit rank inner states body e).1.done = e.1.done := by
  unfold emit
  dsimp only
  split <;> exact ⟨rfl, rfl⟩

/-- New nodes and edges leave the queue as it is, and what is done. -/
theorem extend_spec (item : Item sp) (body : NodeBody sp) (d : Decomposition sp) :
    (extend g ranking item body d).1.queue = d.queue ∧
      (extend g ranking item body d).1.done = d.done := by
  unfold extend connectAll
  dsimp only
  rw [(emit_spec _ _ _ _ _).1, (emit_spec _ _ _ _ _).1, (emit_spec _ _ _ _ _).1,
    (emit_spec _ _ _ _ _).2, (emit_spec _ _ _ _ _).2, (emit_spec _ _ _ _ _).2]
  exact ⟨rfl, rfl⟩

theorem process_eq {o : Options} {item : Item sp} {body : NodeBody sp}
    (hv : (item.split g (lower ranking item.node)).tracing.violation = none)
    (hbody : cycleBody g o item.node.rank (item.split g (lower ranking item.node)) = .ok body) :
    d.process g o ranking item =
      let e := extend g ranking item body (takeUp g ranking item d)
      (e.1.queueSuccessors g ranking item.node.rank e.2).map fun d ↦
        d.report (.rankDecomposed item.node.rank
          (item.split g (lower ranking item.node)).tracing.walks.length e.2.length) := by
  unfold process
  dsimp only
  rw [hv]
  dsimp only
  rw [hbody]
  rfl

theorem process_of_violation {o : Options} {item : Item sp} {v : Violation}
    (hv : (item.split g (lower ranking item.node)).tracing.violation = some v) :
    d.process g o ranking item = .error ⟨v, (takeUp g ranking item d).log⟩ := by
  unfold process
  dsimp only
  rw [hv]
  rfl

/-- An assumption graph that is refused breaks a rank off when its approach has been added. -/
theorem process_of_refused {o : Options} {item : Item sp} {v : Violation}
    (hv : (item.split g (lower ranking item.node)).tracing.violation = none)
    (hbody : cycleBody g o item.node.rank (item.split g (lower ranking item.node)) = .error v) :
    d.process g o ranking item = .error ⟨v, (emit item.node.rank
      (item.split g (lower ranking item.node)).tracing.inner
      (item.split g (lower ranking item.node)).approach .attractorNotFromCycle
      (takeUp g ranking item d, [])).1.log⟩ := by
  unfold process
  dsimp only
  rw [hv]
  dsimp only
  rw [hbody]
  rfl

/-- What is decomposed has been explored without a violation. -/
theorem explored_of_process {o : Options} {item : Item sp} {d' : Decomposition sp}
    (h : d.process g o ranking item = .ok d') :
    (item.split g (lower ranking item.node)).tracing.violation = none ∧ ∃ body,
      cycleBody g o item.node.rank (item.split g (lower ranking item.node)) = .ok body := by
  unfold process at h
  dsimp only at h
  split at h
  · simp at h
  · rename_i hv
    refine ⟨hv, ?_⟩
    split at h
    · simp at h
    · exact ⟨_, ‹_›⟩

/-- What is decomposed has offered its successors in the end. -/
theorem queueSuccessors_of_process {o : Options} {item : Item sp} {d' : Decomposition sp}
    (h : d.process g o ranking item = .ok d') : ∃ body,
      cycleBody g o item.node.rank (item.split g (lower ranking item.node)) = .ok body ∧
      ∃ d'' paths nodes, d' = d''.report (.rankDecomposed item.node.rank paths nodes) ∧
        (extend g ranking item body (takeUp g ranking item d)).1.queueSuccessors g ranking
          item.node.rank (extend g ranking item body (takeUp g ranking item d)).2 = .ok d'' := by
  obtain ⟨hv, body, hbody⟩ := explored_of_process h
  rw [process_eq hv hbody] at h
  dsimp only at h
  cases hq : (extend g ranking item body (takeUp g ranking item d)).1.queueSuccessors g ranking
      item.node.rank (extend g ranking item body (takeUp g ranking item d)).2 with
  | error e =>
    rw [hq] at h
    cases h
  | ok d'' =>
    rw [hq] at h
    exact ⟨body, hbody, d'', _, _, (Except.ok.inj h).symm, hq⟩

private theorem any_nonempty_iff {s? : Option (StateSet sp)} :
    s?.any (fun s ↦ !s.isEmpty) = true ↔ ∃ s, s? = some s ∧ ∃ i, i ∈ s := by
  cases s? with
  | none => exact iff_of_false (fun h ↦ by cases h) fun ⟨_, h, _⟩ ↦ by cases h
  | some s =>
    rw [Option.any_some, Bool.not_eq_true', StateSet.isEmpty_eq_false_iff]
    exact ⟨fun hne ↦ ⟨s, rfl, hne⟩, fun ⟨t, ht, hne⟩ ↦ Option.some.inj ht ▸ hne⟩

/-- **The edges around new nodes.** -/
theorem connectAll_spec (hwf : d.graph.WellFormed) (sources emitted : List Nat) :
    (d.connectAll g sources emitted).graph.WellFormed ∧
      (d.connectAll g sources emitted).graph.nodes = d.graph.nodes ∧
      ∀ a b, (d.connectAll g sources emitted).graph.Joins a b ↔ d.graph.Joins a b ∨
        ((a, b) ∈ edgeCandidates sources emitted ∧ a ≠ b ∧
          ∃ s, (d.connectAll g sources emitted).graph.edgeStates? g a b = some s ∧ ∃ i, i ∈ s) := by
  have hnodes : (d.connectAll g sources emitted).graph.nodes = d.graph.nodes :=
    (Graph.joins_connectFold (edgeCandidates sources emitted) 0 0).1
  have hjoins : ∀ a b, (d.connectAll g sources emitted).graph.Joins a b ↔ d.graph.Joins a b ∨
      ((a, b) ∈ edgeCandidates sources emitted ∧ a ≠ b ∧
        ∃ s, d.graph.edgeStates? g a b = some s ∧ ∃ i, i ∈ s) := fun a b ↦ by
    rw [← any_nonempty_iff]
    exact (Graph.joins_connectFold (edgeCandidates sources emitted) a b).2
  refine ⟨hwf.of_nodes_eq hnodes fun a b hab ↦ ?_, hnodes, fun a b ↦ ?_⟩
  · rcases (hjoins a b).mp hab with hold | ⟨-, hne, s, hs, -⟩
    · exact Or.inl hold
    · obtain ⟨ha, hb⟩ := Graph.mem_of_edgeStates?_eq_some hwf hs
      exact Or.inr ⟨ha, hb, hne⟩
  · rw [Graph.edgeStates?_congr hnodes]
    exact hjoins a b

section Extend

variable {item : Item sp} (hready : item.Ready g (lower ranking item.node))
  (hv : (item.split g (lower ranking item.node)).tracing.violation = none)

include hready hv

private theorem from_of_emits {states : StateSet sp} {body : NodeBody sp}
    {d d' : Decomposition sp} {news : List (Node sp)}
    (h : Emits item.node.rank (item.split g (lower ranking item.node)).tracing.inner states body
      d d' news)
    (hmem : states ∈ (item.split g (lower ranking item.node)).parts)
    (hpart : states = (item.split g (lower ranking item.node)).part body.kind)
    {n : Node sp} (hn : n ∈ news) : n.From g ranking item ∧ n.kind = body.kind := by
  obtain ⟨hrank, rfl, htrans, hbody, hne⟩ := h.of_part n hn
  have hkind : n.kind = body.kind := by rw [Node.kind, hbody]
  exact ⟨⟨hready, hv, hrank, hmem, htrans, by rw [hkind]; exact hpart, hne⟩, hkind⟩

omit hready hv in
/-- At most one node of each kind is added, so the nodes come in the order of their kinds. -/
private theorem ordered_of_single {na nc nd : List (Node sp)}
    (ha : na.Pairwise fun _ _ ↦ False) (hc : nc.Pairwise fun _ _ ↦ False)
    (hd : nd.Pairwise fun _ _ ↦ False) (hna : ∀ n ∈ na, n.kind = .attractorNotFromCycle)
    (hnc : ∀ n ∈ nc, n.kind = .cycle) (hnd : ∀ n ∈ nd, n.kind = .attractorFromCycle) :
    (na ++ nc ++ nd).Pairwise fun n m ↦ n.kind.place < m.kind.place := by
  rw [List.pairwise_append, List.pairwise_append]
  refine ⟨⟨ha.imp False.elim, hc.imp False.elim, fun n hn m hm ↦ ?_⟩, hd.imp False.elim,
    fun n hn m hm ↦ ?_⟩
  · rw [hna n hn, hnc m hm]
    decide
  · rw [hnd m hm]
    rcases List.mem_append.mp hn with hn | hn
    · rw [hna n hn]
      decide
    · rw [hnc n hn]
      decide

theorem extends_extend {body : NodeBody sp} (hwf : d.graph.WellFormed)
    (hbody : body.kind = .cycle) :
    ∃ na nc nd, Extends g ranking item d (extend g ranking item body (takeUp g ranking item d)).1
      (extend g ranking item body (takeUp g ranking item d)).2 na nc nd := by
  obtain ⟨hgraph, hqueue, hdone⟩ : _ ∧ (takeUp g ranking item d).queue = _ ∧ _ := takeUp_spec item d
  generalize htake : takeUp g ranking item d = d₀ at hgraph hqueue hdone ⊢
  unfold extend
  dsimp only
  set s := item.split g (lower ranking item.node) with hs
  obtain ⟨na, ha, hea⟩ := emits_emit (d := d₀) (hgraph ▸ hwf) item.node.rank s.tracing.inner
    s.approach .attractorNotFromCycle (fun h ↦ by cases h) []
  generalize emit item.node.rank s.tracing.inner s.approach .attractorNotFromCycle (d₀, []) = e₁
    at ha hea ⊢
  obtain ⟨nc, hc, hec⟩ := emits_emit ha.wellFormed item.node.rank s.tracing.inner s.cycle body
    (fun h ↦ by rw [hbody] at h; cases h) e₁.2
  generalize emit item.node.rank s.tracing.inner s.cycle body (e₁.1, e₁.2) = e₂ at hc hec ⊢
  obtain ⟨nd, hd, hed⟩ := emits_emit hc.wellFormed item.node.rank s.tracing.inner s.descent
    .attractorFromCycle (fun h ↦ by cases h) e₂.2
  generalize emit item.node.rank s.tracing.inner s.descent .attractorFromCycle (e₂.1, e₂.2) = e₃
    at hd hed ⊢
  obtain ⟨hwf', hnodes', hjoins'⟩ := connectAll_spec (g := g) hd.wellFormed item.sources e₃.2
  have hna : ∀ n ∈ na, n.From g ranking item ∧ n.kind = .attractorNotFromCycle := fun n hn ↦
    from_of_emits hready hv ha (Split.approach_mem_parts _) rfl hn
  have hnc : ∀ n ∈ nc, n.From g ranking item ∧ n.kind = .cycle := fun n hn ↦
    hbody ▸ from_of_emits hready hv hc (Split.cycle_mem_parts _) (by rw [hbody, Split.part]) hn
  have hnd : ∀ n ∈ nd, n.From g ranking item ∧ n.kind = .attractorFromCycle := fun n hn ↦
    from_of_emits hready hv hd (Split.descent_mem_parts _) rfl hn
  refine ⟨na, nc, nd, {
    wellFormed := hwf'
    nodes_eq := ?_
    queue_eq := (hd.queue_eq.trans hc.queue_eq).trans (ha.queue_eq.trans hqueue)
    done_eq := (hd.done_eq.trans hc.done_eq).trans (ha.done_eq.trans hdone)
    emitted_eq := ?_
    approach := hna
    cycle := hnc
    descent := hnd
    exists_approach := ha.exists_node
    exists_cycle := hc.exists_node
    exists_descent := hd.exists_node
    ordered := ordered_of_single ha.single hc.single hd.single (fun n hn ↦ (hna n hn).2)
      (fun n hn ↦ (hnc n hn).2) fun n hn ↦ (hnd n hn).2
    log_eq := ?_
    joins := fun a b ↦ ?_ }⟩
  · rw [hnodes', hd.nodes_eq, hc.nodes_eq, ha.nodes_eq, hgraph, List.append_assoc,
      List.append_assoc, List.append_assoc]
  · rw [hed, hec, hea, List.nil_append, List.map_append, List.map_append]
  · change e₃.1.log = _
    rw [hd.log_eq, hc.log_eq, ha.log_eq, htake, List.map_append, List.map_append,
      List.reverse_append, List.reverse_append, List.append_assoc, List.append_assoc]
  · have hjoin : ∀ {a b}, e₃.1.graph.Joins a b ↔ d.graph.Joins a b := by
      intro a b
      rw [Graph.Joins, hd.edges_eq, hc.edges_eq, ha.edges_eq, hgraph]
      rfl
    rw [hjoins', hjoin]

end Extend

/-! ## Nothing is lost -/

section Served

variable {item : Item sp} {d' : Decomposition sp} {emitted : List Nat} {na nc nd : List (Node sp)}
  (h : g.Shaped) (hwf : d.graph.WellFormed) (he : Extends g ranking item d d' emitted na nc nd)

include he

theorem Extends.mem_nodes {n : Node sp} (hn : n ∈ na ++ nc ++ nd) : n ∈ d'.graph.nodes :=
  he.nodes_eq ▸ List.mem_append_right _ hn

theorem Extends.approach_eq {n : Node sp} (hn : n ∈ na) :
    n.states = (item.split g (lower ranking item.node)).approach :=
  (he.approach n hn).1.approach_eq (he.approach n hn).2

theorem Extends.cycle_eq {n : Node sp} (hn : n ∈ nc) :
    n.states = (item.split g (lower ranking item.node)).cycle :=
  (he.cycle n hn).1.cycle_eq (he.cycle n hn).2

theorem Extends.descent_eq {n : Node sp} (hn : n ∈ nd) :
    n.states = (item.split g (lower ranking item.node)).descent :=
  (he.descent n hn).1.descent_eq (he.descent n hn).2

theorem Extends.from_item {n : Node sp} (hn : n ∈ na ++ nc ++ nd) : n.From g ranking item := by
  rcases List.mem_append.mp hn with hn | hn
  · rcases List.mem_append.mp hn with hn | hn
    · exact (he.approach n hn).1
    · exact (he.cycle n hn).1
  · exact (he.descent n hn).1

theorem Extends.exists_node {states : StateSet sp}
    (hs : states ∈ (item.split g (lower ranking item.node)).parts) (hne : ∃ i, i ∈ states) :
    ∃ n ∈ na ++ nc ++ nd, n.states = states := by
  rcases Split.mem_parts.mp hs with rfl | rfl | rfl
  · obtain ⟨n, hn⟩ := he.exists_approach hne
    exact ⟨n, List.mem_append_left _ (List.mem_append_left _ hn), he.approach_eq hn⟩
  · obtain ⟨n, hn⟩ := he.exists_cycle hne
    exact ⟨n, List.mem_append_left _ (List.mem_append_right _ hn), he.cycle_eq hn⟩
  · obtain ⟨n, hn⟩ := he.exists_descent hne
    exact ⟨n, List.mem_append_right _ hn, he.descent_eq hn⟩

theorem Extends.mem_of_node? {id : Nat} (hid : id ∈ emitted) {n : Node sp}
    (hn : d'.graph.node? id = some n) : n ∈ na ++ nc ++ nd := by
  rw [he.emitted_eq] at hid
  obtain ⟨m, hm, rfl⟩ := List.mem_map.mp hid
  rw [he.wellFormed.node?_eq_some (he.mem_nodes hm)] at hn
  exact Option.some.inj hn ▸ hm

/-- The numbers of new nodes are new. -/
theorem Extends.id_lt {n m : Node sp} (hn : n ∈ d.graph.nodes) (hm : m ∈ na ++ nc ++ nd) :
    n.id < m.id := by
  have hasc := he.wellFormed.ascending
  rw [he.nodes_eq, List.pairwise_append] at hasc
  exact hasc.2.2 n hn m hm

include hwf in
theorem Extends.id_ne_initialId {n : Node sp} (hn : n ∈ na ++ nc ++ nd) :
    n.id ≠ Graph.initialId := by
  obtain ⟨r, hr, hr0⟩ := hwf.root
  exact hr0 ▸ (Nat.ne_of_lt (he.id_lt hr hn)).symm

/-- An edge is found wherever a state that the one node leads to lies in the other. -/
theorem Extends.joins_of_mem {a i : Nat} {m : Node sp} {s : StateSet sp}
    (hm : m ∈ d'.graph.nodes) (ha : d'.graph.arrivals? g a = some s)
    (hc : (a, m.id) ∈ edgeCandidates item.sources emitted) (hne : a ≠ m.id) (hi : i ∈ s)
    (him : i ∈ g.strip m.states) : d'.graph.Joins a m.id :=
  (he.joins a m.id).mpr (Or.inr ⟨hc, hne, _,
    Graph.edgeStates?_eq_some (he.wellFormed.node?_eq_some hm) ha, i,
    StateSet.mem_inter.mpr ⟨hi, him⟩⟩)

include h hwf

omit h in
/-- What awaited the rank is found as an edge to the new node that holds it. -/
theorem Extends.joins_of_awaits {id i : Nat} {s : StateSet sp}
    (ha : d.graph.arrivals? g id = some s) (hi : i ∈ s) (hawaits : item.Awaits id i) {m : Node sp}
    (hm : m ∈ na ++ nc ++ nd) (him : i ∈ g.strip m.states) : d'.graph.Joins id m.id := by
  obtain ⟨p, hp, hid, -⟩ := hawaits
  have hcand : (id, m.id) ∈ edgeCandidates item.sources emitted :=
    mem_edgeCandidates.mpr (Or.inl ⟨Item.mem_sources.mpr ⟨p, hp, hid⟩,
      he.emitted_eq ▸ List.mem_map_of_mem hm⟩)
  have hne : id ≠ m.id := by
    obtain ⟨n, hn, rfl⟩ := Graph.exists_of_arrivals?_eq_some hwf ha
    exact Nat.ne_of_lt (he.id_lt hn hm)
  have ha' := Graph.arrivals?_append he.wellFormed he.nodes_eq ha
  exact he.joins_of_mem (he.mem_nodes hm) ha' hcand hne hi him

/-- What awaited the rank lies in a child of the node that led there. -/
theorem Extends.exists_child_of_awaits
    (hs : (item.split g (lower ranking item.node)).Sound g item (lower ranking item.node))
    {id i : Nat} {s : StateSet sp} (ha : d.graph.arrivals? g id = some s) (hi : i ∈ s)
    (hawaits : item.Awaits id i) :
    ∃ m ∈ d'.graph.nodes, d'.graph.Joins id m.id ∧ i ∈ g.strip m.states := by
  obtain ⟨states, hstates, his⟩ := hs.awaited id i hawaits
  obtain ⟨-, j, hj, -⟩ := (h.mem_strip (hs.current states hstates)).mp his
  obtain ⟨m, hm, rfl⟩ := he.exists_node hstates ⟨j, hj⟩
  exact ⟨m, he.mem_nodes hm, he.joins_of_awaits hwf ha hi hawaits hm his, his⟩

/-- A step from a new node into the part of a later one is found as an edge. -/
theorem Extends.joins_later {front behind : List (Node sp)}
    (hsplit : na ++ nc ++ nd = front ++ behind) {n m : Node sp} (hn : n ∈ front) (hm : m ∈ behind)
    {v : Nat} (hv : v ∈ n.transitions) (hsys : v ∈ g.sysTrans)
    (hnext : sp.next v ∈ g.strip m.states) : d'.graph.Joins n.id m.id := by
  have hnn : n ∈ na ++ nc ++ nd := hsplit ▸ List.mem_append_left _ hn
  have hmm : m ∈ na ++ nc ++ nd := hsplit ▸ List.mem_append_right _ hm
  have hcand : (n.id, m.id) ∈ edgeCandidates item.sources emitted := by
    rw [he.emitted_eq, hsplit, List.map_append]
    exact mem_edgeCandidates.mpr (Or.inr
      (mem_laterPairs_append (List.mem_map_of_mem hn) (List.mem_map_of_mem hm)))
  have hne : n.id ≠ m.id := by
    have hasc := he.wellFormed.ascending
    rw [he.nodes_eq, hsplit, List.pairwise_append, List.pairwise_append] at hasc
    exact Nat.ne_of_lt (hasc.2.1.2.2 n hn m hm)
  have harr := Graph.arrivals?_of_mem (g := g) he.wellFormed (he.mem_nodes hnn)
    (he.id_ne_initialId hwf hnn)
  exact he.joins_of_mem (he.mem_nodes hmm) harr hcand hne
    (h.mem_strip_of_mem (Game.current_image _ _)
      (Game.next_mem_image ((he.from_item hnn).mem_states hv) hv hsys)) hnext

/-- A committed step of a new node leads into the node, into one of its children or below. -/
theorem Extends.next_cases (ho : g.OfStates) {n : Node sp} (hn : n ∈ na ++ nc ++ nd) {v : Nat}
    (hv : v ∈ n.transitions) (hsys : v ∈ g.sysTrans) :
    sp.next v ∈ g.strip n.states ∨
      (∃ m ∈ d'.graph.nodes, d'.graph.Joins n.id m.id ∧ sp.next v ∈ g.strip m.states) ∨
      sp.next v ∈ lower ranking item.node := by
  have hs := (he.from_item hn).sound h ho
  have hvs : v ∈ n.states := (he.from_item hn).mem_states hv
  have hin := (he.from_item hn).mem_inner hv
  -- a part that a step leads into is not empty, so it has a node
  have hne : ∀ states ∈ (item.split g (lower ranking item.node)).parts,
      sp.next v ∈ g.strip states → ∃ j, j ∈ states := fun states hstates hnext ↦ by
    obtain ⟨-, j, hj, -⟩ := (h.mem_strip (hs.current states hstates)).mp hnext
    exact ⟨j, hj⟩
  have hdescent : n ∈ na ++ nc → sp.next v ∈
      g.strip (item.split g (lower ranking item.node)).descent →
      ∃ m ∈ d'.graph.nodes, d'.graph.Joins n.id m.id ∧ sp.next v ∈ g.strip m.states := by
    intro hfront hnext
    obtain ⟨m, hm⟩ := he.exists_descent (hne _ (Split.descent_mem_parts _) hnext)
    have hmem : m ∈ na ++ nc ++ nd := List.mem_append_right _ hm
    rw [← he.descent_eq hm] at hnext
    exact ⟨m, he.mem_nodes hmem, he.joins_later h hwf rfl hfront hm hv hsys hnext, hnext⟩
  rcases List.mem_append.mp hn with hnac | hnd
  · rcases List.mem_append.mp hnac with hna | hnc
    · have heq := he.approach_eq hna
      rcases hs.from_approach v (heq ▸ hvs) hin hsys with ⟨states, hstates, hnext⟩ | hlower
      · rcases Split.mem_parts.mp hstates with rfl | rfl | rfl
        · exact Or.inl (heq ▸ hnext)
        · obtain ⟨m, hm⟩ := he.exists_cycle (hne _ (Split.cycle_mem_parts _) hnext)
          have hmem : m ∈ na ++ nc ++ nd := List.mem_append_left _ (List.mem_append_right _ hm)
          rw [← he.cycle_eq hm] at hnext
          exact Or.inr (Or.inl ⟨m, he.mem_nodes hmem, he.joins_later h hwf
            (List.append_assoc na nc nd) hna (List.mem_append_left _ hm) hv hsys hnext, hnext⟩)
        · exact Or.inr (Or.inl (hdescent hnac hnext))
      · exact Or.inr (Or.inr hlower)
    · have heq := he.cycle_eq hnc
      rcases hs.from_cycle v (heq ▸ hvs) hin hsys with hcycle | hnext | hlower
      · exact Or.inl (heq ▸ hcycle)
      · exact Or.inr (Or.inl (hdescent hnac hnext))
      · exact Or.inr (Or.inr hlower)
  · have heq := he.descent_eq hnd
    rcases hs.from_descent v (heq ▸ hvs) hin hsys with hnext | hlower
    · exact Or.inl (heq ▸ hnext)
    · exact Or.inr (Or.inr hlower)

end Served

/-! ## The whole of it -/

/-- What has happened when the first rank of the queue is decomposed. -/
structure Advances (g : Game sp) (ranking : Ranking sp) (item : Item sp)
    (d d' : Decomposition sp) : Prop where
  sound : d'.Sound g ranking item.node.rank
  new : ∀ n ∈ d'.graph.nodes, n ∈ d.graph.nodes ∨
    n.From g ranking item ∧ n.id ≠ Graph.initialId ∧
      (g.RowsCover → ∀ v ∈ n.transitions, v ∈ g.sysTrans →
        sp.next v ∈ g.strip n.states ∨ d'.Served g n.id (sp.next v))
  served : ∀ id i s, d.graph.arrivals? g id = some s → i ∈ s → d.Served g id i → d'.Served g id i

section Process

variable (h : g.Shaped) (ho : g.OfStates) (hr : g.ranking? = some ranking)

private theorem origin_update {bound : Nat} (hd : d.Sound g ranking bound) {item : Item sp}
    (hlt : item.node.rank < bound) {d' : Decomposition sp}
    (hnew : ∀ n ∈ d'.graph.nodes, n ∈ d.graph.nodes ∨ n.From g ranking item) :
    ∃ items : Nat → Item sp, ∀ n ∈ d'.graph.nodes, n.id ≠ Graph.initialId →
      ∃ r, item.node.rank ≤ r ∧ (items r).node.rank = r ∧ n.From g ranking (items r) := by
  obtain ⟨items, horigin⟩ := hd.origin
  refine ⟨Function.update items item.node.rank item, fun n hn h0 ↦ ?_⟩
  rcases hnew n hn with hold | hfrom
  · obtain ⟨r, hbound, hrank, hfrom⟩ := horigin n hold h0
    refine ⟨r, by omega, ?_⟩
    rw [Function.update_of_ne (by omega)]
    exact ⟨hrank, hfrom⟩
  · refine ⟨item.node.rank, Nat.le_refl _, ?_⟩
    rw [Function.update_self]
    exact ⟨rfl, hfrom⟩

variable {bound : Nat} (hd : d.Sound g ranking bound) {item : Item sp} {rest : List (Item sp)}
  (hqueue : d.queue = item :: rest) {d₁ d' : Decomposition sp} {emitted : List Nat}
  {na nc nd : List (Node sp)}
  (he : Extends g ranking item { d with queue := rest } d₁ emitted na nc nd)

include hd hqueue he

private theorem queued_of_extends : d₁.Queued g ranking item.node.rank := by
  have hqueue' : d₁.queue = rest := he.queue_eq
  have hrest : ∀ i ∈ d₁.queue, i ∈ d.queue := fun i hi ↦
    hqueue ▸ List.mem_cons_of_mem _ (hqueue' ▸ hi)
  have hsorted := hqueue ▸ hd.sorted
  rw [List.pairwise_cons] at hsorted
  exact {
    sorted := hqueue' ▸ hsorted.2
    below := fun i hi ↦ hsorted.1 i (hqueue' ▸ hi)
    fits := fun i hi ↦ hd.fits i (hrest i hi)
    mem_nodes := fun i hi ↦ hd.mem_nodes i (hrest i hi)
    done := fun r hr ↦ by
      rw [he.done_eq] at hr
      rcases List.mem_cons.mp hr with rfl | hr
      · exact Nat.le_refl _
      · exact (Nat.le_of_lt (hd.below item (hqueue ▸ List.mem_cons_self))).trans (hd.done r hr) }

/-- What was served stays served: a state that awaited the rank taken up lies in a child now. -/
private theorem served_of_extends (h : g.Shaped) (ho : g.OfStates)
    (hready : item.Ready g (lower ranking item.node))
    (hv : (item.split g (lower ranking item.node)).tracing.violation = none)
    (hkeeps : Keeps g ranking item.node.rank d₁ d') {id i : Nat} {s : StateSet sp}
    (ha : d.graph.arrivals? g id = some s) (hi : i ∈ s) (hserved : d.Served g id i) :
    d'.Served g id i := by
  have hold : ({ d with queue := rest } : Decomposition sp).graph.WellFormed := hd.wellFormed
  rcases hserved with ⟨m, hm, hjoin, him⟩ | ⟨item', hitem', hawaits⟩
  · refine Or.inl ?_
    rw [hkeeps.graph_eq, he.nodes_eq]
    exact ⟨m, List.mem_append_left _ hm, (he.joins id m.id).mpr (Or.inl hjoin), him⟩
  · rw [hqueue] at hitem'
    rcases List.mem_cons.mp hitem' with rfl | hitem'
    · refine Or.inl ?_
      rw [hkeeps.graph_eq]
      exact he.exists_child_of_awaits h hold (Item.Ready.sound_split h ho hready hv) ha hi
        hawaits
    · exact Or.inr (hkeeps.awaits id i ⟨item', he.queue_eq ▸ hitem', hawaits⟩)

include h ho hr

/-- What a new node leads to lies in it or is served: what lies below has been offered. -/
private theorem served_of_new (hkeeps : Keeps g ranking item.node.rank d₁ d')
    (hoffered : ∀ id ∈ emitted, ∀ n, d₁.graph.node? id = some n →
      ∀ other ∈ ranking.nodes, other.rank ≠ item.node.rank →
      ∀ i ∈ g.strip (g.image n.states n.transitions), i ∈ other.states → d'.Awaits id i)
    {n : Node sp} (hn : n ∈ na ++ nc ++ nd) {v : Nat} (hv : v ∈ n.transitions)
    (hsys : v ∈ g.sysTrans) : sp.next v ∈ g.strip n.states ∨ d'.Served g n.id (sp.next v) := by
  have hold : ({ d with queue := rest } : Decomposition sp).graph.WellFormed := hd.wellFormed
  rcases he.next_cases h hold ho hn hv hsys with hself | hchild | hlower
  · exact Or.inl hself
  · refine Or.inr (Or.inl ?_)
    rwa [hkeeps.graph_eq]
  · obtain ⟨m, hm, -, hms⟩ := (Ranking.mem_lower hr).mp hlower
    have hitem : item ∈ d.queue := hqueue ▸ List.mem_cons_self
    have hne : m.rank ≠ item.node.rank := fun heq ↦ by
      have hbelow := Ranking.lower_subset h hr (hd.mem_nodes item hitem) hlower
      rw [Ranking.states_eq h hr hm, heq] at hms
      exact (Game.mem_level.mp hms).2 hbelow
    have himage : sp.next v ∈ g.strip (g.image n.states n.transitions) :=
      h.mem_strip_of_mem (Game.current_image _ _)
        (Game.next_mem_image ((he.from_item hn).mem_states hv) hv hsys)
    refine Or.inr (Or.inr (hoffered n.id ?_ n ?_ m hm hne _ himage hms))
    · exact he.emitted_eq ▸ List.mem_map_of_mem hn
    · exact he.wellFormed.node?_eq_some (he.mem_nodes hn)

omit he

/-- **Decomposing a rank**: if it is explored without a violation, then nothing else can fail, and
nothing that awaits a rank is lost. -/
theorem exists_process {o : Options}
    (hv : (item.split g (lower ranking item.node)).tracing.violation = none) {body : NodeBody sp}
    (hbody : cycleBody g o item.node.rank (item.split g (lower ranking item.node)) = .ok body) :
    ∃ d', ({ d with queue := rest } : Decomposition sp).process g o ranking item = .ok d' ∧
      Advances g ranking item d d' := by
  have hitem : item ∈ d.queue := hqueue ▸ List.mem_cons_self
  have hready := ready_of_mem_queue h ho hr hd.toQueued hitem
  have hold : ({ d with queue := rest } : Decomposition sp).graph.WellFormed := hd.wellFormed
  obtain ⟨na, nc, nd, he⟩ := extends_extend (d := { d with queue := rest }) hready hv hd.wellFormed
    (kind_cycleBody hbody)
  rw [process_eq hv hbody]
  dsimp only
  generalize extend g ranking item body
    (takeUp g ranking item ({ d with queue := rest } : Decomposition sp)) = e at he ⊢
  obtain ⟨d', hok, hkeeps, hoffered⟩ := queueSuccessors_eq_ok h ho hr
    (queued_of_extends hd hqueue he) fun id hid n hn i hi ↦
      (he.from_item (he.mem_of_node? hid hn)).image_subset h ho hi
  refine ⟨d'.report (.rankDecomposed item.node.rank
    (item.split g (lower ranking item.node)).tracing.walks.length e.2.length), ?_, ?_⟩
  · rw [hok]
    rfl
  have hcases : ∀ n ∈ d'.graph.nodes, n ∈ d.graph.nodes ∨ n ∈ na ++ nc ++ nd := fun n hn ↦ by
    rw [hkeeps.graph_eq, he.nodes_eq] at hn
    exact List.mem_append.mp hn
  exact {
    sound := {
      sorted := hkeeps.queued.sorted
      below := hkeeps.queued.below
      fits := hkeeps.queued.fits
      mem_nodes := hkeeps.queued.mem_nodes
      done := hkeeps.queued.done
      wellFormed := hkeeps.graph_eq ▸ he.wellFormed
      initial_eq := fun n hn h0 ↦ by
        rcases hcases n hn with hmem | hnew
        · exact hd.initial_eq n hmem h0
        · exact absurd h0 (he.id_ne_initialId hold hnew)
      origin := origin_update hd (hd.below item hitem) fun n hn ↦
        (hcases n hn).imp_right he.from_item }
    new := fun n hn ↦ (hcases n hn).imp_right fun hnew ↦
      ⟨he.from_item hnew, he.id_ne_initialId hold hnew, fun hcover v hvt hsys ↦
        served_of_new h ho hr hd hqueue he hkeeps (hoffered hcover) hnew hvt hsys⟩
    served := fun id i s ha hi hserved ↦
      served_of_extends hd hqueue he h ho hready hv hkeeps ha hi hserved }

/-- A rank that is decomposed gets nodes and edges, and offers its successors then. -/
theorem exists_extends_of_process {o : Options}
    (hok : ({ d with queue := rest } : Decomposition sp).process g o ranking item = .ok d') :
    ∃ d₁ emitted na nc nd, Extends g ranking item { d with queue := rest } d₁ emitted na nc nd ∧
      ∃ d₂ paths nodes, d₁.queueSuccessors g ranking item.node.rank emitted = .ok d₂ ∧
        d' = d₂.report (.rankDecomposed item.node.rank paths nodes) := by
  have hready := ready_of_mem_queue h ho hr hd.toQueued (hqueue ▸ List.mem_cons_self)
  obtain ⟨body, hbody, d₂, paths, nodes, heq, hsuccessors⟩ := queueSuccessors_of_process hok
  obtain ⟨na, nc, nd, he⟩ := extends_extend (d := { d with queue := rest }) hready
    (explored_of_process hok).1 hd.wellFormed (kind_cycleBody hbody)
  exact ⟨_, _, na, nc, nd, he, d₂, paths, nodes, hsuccessors, heq⟩

end Process

end Decomposition

end JusticeViolation

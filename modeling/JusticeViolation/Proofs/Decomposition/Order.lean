import JusticeViolation.Proofs.AssumptionGraph
import JusticeViolation.Proofs.Decomposition.Run

/-!
# The order of a decomposition

A decomposition goes down. The rank that is taken up is the highest of the queue, and what its nodes
lead to in other ranks lies in lower ones, since every choice that is committed, by the attractor or
along a path, keeps the play in the rank or below. So ranks are taken up in falling order, none
twice, and a rank that is done is never entered again. Hence a part of a rank has one node at most,
and the sources of a rank are the initial node and nodes of higher ranks: an edge goes to a lower
rank or, within a rank, from an earlier part to a later one.

All this is an invariant of the work-list, `Descending`. It speaks of the reports as well, which
outlast a decomposition that breaks off.
-/

namespace JusticeViolation

variable {sp : Space} {g : Game sp}

/-! ## What is reported -/

namespace Event

/-- The rank that an event reports as taken up. -/
def started? : Event → Option Nat
  | rankStarted rank _ => some rank
  | _ => none

/-- The rank and the kind of the node that an event reports as added. -/
def emitted? : Event → Option (Nat × NodeKind)
  | nodeEmitted _ rank kind => some (rank, kind)
  | _ => none

end Event

/-- Ranks are reported as taken up in falling order, and no part of a rank is added twice; the
latest report comes first. -/
structure Orderly (log : List Event) : Prop where
  started : (log.filterMap Event.started?).Pairwise (· < ·)
  emitted : (log.filterMap Event.emitted?).Nodup

/-! ## What breaks a rank off -/

/-- The violation is a successor in a rank that is done. -/
def Violation.Reenters (v : Violation) : Prop := ∃ r q, v = .decomposedSuccessor r q

theorem Walk.not_reenters {w : Walk sp} {m : Maze sp} {v : Violation}
    (h : w.violation? m = some v) : ¬v.Reenters := by
  rintro ⟨r, q, rfl⟩
  unfold violation? skippedRows? at h
  grind

theorem Decomposition.not_reenters_of_cycleBody {o : Options} {rank : Nat} {s : Split sp}
    {v : Violation} (h : cycleBody g o rank s = .error v) : ¬v.Reenters := by
  rintro ⟨r, q, rfl⟩
  obtain ⟨s, t, heq, -⟩ := Game.assumptionGraph_eq_error (cycleBody_eq_error h)
  cases heq

/-! ## The order of the nodes -/

namespace Node

/-- The rank and the kind of a node, unless it has no rank. -/
def role? (n : Node sp) : Option (Nat × NodeKind) := n.rank.map fun r ↦ (r, n.kind)

theorem role?_eq_some {n : Node sp} {r : Nat} {k : NodeKind} :
    n.role? = some (r, k) ↔ n.rank = some r ∧ n.kind = k := by
  rw [role?, Option.map_eq_some_iff]
  constructor
  · rintro ⟨q, hq, heq⟩
    rw [Prod.mk.injEq] at heq
    exact ⟨heq.1 ▸ hq, heq.2⟩
  · rintro ⟨hr, rfl⟩
    exact ⟨r, hr, rfl⟩

/-- The node `m` is of a lower rank than `n`, or of a later part of the same rank. -/
def Before (n m : Node sp) : Prop :=
  ∃ r q, n.rank = some r ∧ m.rank = some q ∧ (q < r ∨ q = r ∧ n.kind.place < m.kind.place)

end Node

/-- Edges between other nodes than the initial one go down. -/
def Graph.Descends (graph : Graph sp) : Prop :=
  ∀ n ∈ graph.nodes, ∀ m ∈ graph.nodes, n.id ≠ initialId → m.id ≠ initialId →
    graph.Joins n.id m.id → n.Before m

namespace Decomposition

variable {ranking : Ranking sp} {d d' : Decomposition sp}

/-- **A decomposition that has gone down so far**: the ranks that are done are those reported, in
falling order; every part that was reported has one node; a rank that waits has been reached from
the initial node or from higher ranks, and edges go down. -/
structure Descending (d : Decomposition sp) : Prop where
  started_eq : d.log.filterMap Event.started? = d.done
  done_lt : d.done.Pairwise (· < ·)
  emitted_eq : d.log.filterMap Event.emitted? = (d.graph.nodes.filterMap Node.role?).reverse
  roles_nodup : (d.graph.nodes.filterMap Node.role?).Nodup
  sources : ∀ item ∈ d.queue, ∀ id ∈ item.sources, id = Graph.initialId ∨
    ∃ n ∈ d.graph.nodes, n.id = id ∧ ∃ r, n.rank = some r ∧ item.node.rank < r
  descends : d.graph.Descends

theorem Descending.orderly (h : d.Descending) : Orderly d.log where
  started := h.started_eq ▸ h.done_lt
  emitted := h.emitted_eq ▸ List.nodup_reverse.mpr h.roles_nodup

/-- A part of a rank has one node at most. -/
theorem Descending.eq_of_role?_eq_some (h : d.Descending) {n m : Node sp}
    (hn : n ∈ d.graph.nodes) (hm : m ∈ d.graph.nodes) {role : Nat × NodeKind}
    (hnr : n.role? = some role) (hmr : m.role? = some role) : n = m := by
  by_contra hne
  have hsymm : Std.Symm fun a b : Node sp ↦
      ∀ x, a.role? = some x → ∀ y, b.role? = some y → x ≠ y :=
    ⟨fun a b hab x hx y hy ↦ (hab y hy x hx).symm⟩
  exact (List.pairwise_filterMap.mp h.roles_nodup).forall hn hm hne role hnr role hmr rfl

/-- Other reports do not matter. -/
theorem Descending.report (h : d.Descending) {e : Event} (hs : e.started? = none)
    (he : e.emitted? = none) : (d.report e).Descending where
  started_eq := (List.filterMap_cons_none hs).trans h.started_eq
  done_lt := h.done_lt
  emitted_eq := (List.filterMap_cons_none he).trans h.emitted_eq
  roles_nodup := h.roles_nodup
  sources := h.sources
  descends := h.descends

/-! ## Sources -/

/-- Adding start points adds one source. -/
theorem mem_sources_addStarts {item : Item sp} {starts : List (Nat × Nat × StateSet sp)}
    {source id : Nat} (hid : id ∈ (item.addStarts starts source).sources) :
    id = source ∨ id ∈ item.sources := by
  obtain ⟨p, hp, hid⟩ := Item.mem_sources.mp hid
  have hall : ∀ p ∈ (item.addStarts starts source).starts, ∀ id ∈ p.sources,
      id = source ∨ id ∈ item.sources := by
    refine Item.forall_addStarts (fun _ _ id hid ↦ Or.inl (List.mem_singleton.mp hid))
      (fun _ _ q hq _ _ id hid ↦ ?_) fun p hp id hid ↦ Or.inr (Item.mem_sources.mpr ⟨p, hp, hid⟩)
    rcases mem_insertAscending.mp hid with rfl | hid
    · exact Or.inl rfl
    · exact hq id hid
  exact hall p hp id hid

/-- Making a node a source of one more rank, which lies below it. -/
theorem Descending.enqueue (h : d.Descending) {node : RankNode sp} {source : Nat}
    (starts : Item sp → List (Nat × Nat × StateSet sp))
    (hsource : source = Graph.initialId ∨
      ∃ n ∈ d.graph.nodes, n.id = source ∧ ∃ r, n.rank = some r ∧ node.rank < r) :
    (d.enqueue g node fun item ↦ item.addStarts (starts item) source).Descending where
  started_eq := h.started_eq
  done_lt := h.done_lt
  emitted_eq := h.emitted_eq
  roles_nodup := h.roles_nodup
  sources := by
    refine forall_changeItem (fun id hid ↦ ?_) (fun item hitem hrank id hid ↦ ?_) h.sources
    · rcases mem_sources_addStarts hid with rfl | hid
      · exact hsource
      · obtain ⟨p, hp, -⟩ := Item.mem_sources.mp hid
        exact absurd hp List.not_mem_nil
    · rcases mem_sources_addStarts hid with rfl | hid
      · change id = _ ∨ ∃ n ∈ d.graph.nodes, n.id = id ∧ ∃ r, n.rank = some r ∧ item.node.rank < r
        rw [hrank]
        exact hsource
      · exact h.sources item hitem id hid
  descends := h.descends

theorem descending_start : (start g ranking).Descending := by
  refine start_induction ?_ fun d node _ h ↦ h.enqueue (initialStarts g) (Or.inl rfl)
  exact {
    started_eq := rfl
    done_lt := .nil
    emitted_eq := rfl
    roles_nodup := .nil
    sources := fun _ h ↦ absurd h List.not_mem_nil
    descends := fun _ _ _ _ _ _ ⟨_, he, _⟩ ↦ absurd he List.not_mem_nil }

/-! ## One rank -/

theorem log_reports (events : List Event) (d : Decomposition sp) :
    (events.foldl report d).log = events.reverse ++ d.log := by
  induction events generalizing d with
  | nil => rfl
  | cons e events ih =>
    rw [List.foldl_cons, ih, List.reverse_cons, List.append_assoc]
    rfl

/-- When a rank is taken up, this is reported, and then the paths are that are traced. -/
theorem filterMap_takeUp {α : Type} {f : Event → Option α}
    (hf : ∀ rank row column, f (.pathExtended rank row column) = none) (item : Item sp)
    (d : Decomposition sp) : (takeUp g ranking item d).log.filterMap f
      = (.rankStarted item.node.rank item.starts.length :: d.log).filterMap f := by
  rw [takeUp, log_reports, List.filterMap_append, List.filterMap_eq_nil_iff.mpr fun e he ↦ ?_]
  · rfl
  · obtain ⟨w, -, he⟩ := List.mem_flatMap.mp (List.mem_reverse.mp he)
    obtain ⟨p, -, rfl⟩ := List.mem_map.mp he
    exact hf _ _ _

theorem started_emits {rank : Nat} (news : List (Node sp)) (log : List Event) :
    ((news.map fun n ↦ Event.nodeEmitted n.id rank n.kind).reverse ++ log).filterMap Event.started?
      = log.filterMap Event.started? := by
  rw [List.filterMap_append, List.filterMap_eq_nil_iff.mpr fun e he ↦ ?_, List.nil_append]
  obtain ⟨n, -, rfl⟩ := List.mem_map.mp (List.mem_reverse.mp he)
  rfl

/-- What is reported of new nodes is their rank and their kind. -/
theorem Descending.emitted_emits (h : d.Descending) {rank : Nat} {news : List (Node sp)}
    (hrank : ∀ n ∈ news, n.rank = some rank) :
    ((news.map fun n ↦ Event.nodeEmitted n.id rank n.kind).reverse ++ d.log).filterMap
        Event.emitted? = ((d.graph.nodes ++ news).filterMap Node.role?).reverse := by
  rw [List.filterMap_append, List.filterMap_append, List.reverse_append, h.emitted_eq,
    List.filterMap_reverse, List.filterMap_map]
  congr 2
  refine List.filterMap_congr fun n hn ↦ ?_
  rw [Node.role?, hrank n hn]
  rfl

/-- What holds of every earlier and later member of a list, holds of its pairs. -/
theorem rel_of_mem_laterPairs {R : Nat → Nat → Prop} {ns : List Nat} (h : ns.Pairwise R)
    {a b : Nat} (hab : (a, b) ∈ laterPairs ns) : R a b := by
  induction ns with
  | nil => exact absurd hab List.not_mem_nil
  | cons n ns ih =>
    obtain ⟨hn, hns⟩ := List.pairwise_cons.mp h
    rw [laterPairs] at hab
    rcases List.mem_append.mp hab with hab | hab
    · obtain ⟨m, hm, heq⟩ := List.mem_map.mp hab
      rw [Prod.mk.injEq] at heq
      exact heq.1 ▸ heq.2 ▸ hn m hm
    · exact ih hns hab

section Process

variable {bound : Nat} {item : Item sp} {rest : List (Item sp)} (hd : d.Sound g ranking bound)
  (hqueue : d.queue = item :: rest)

include hd

/-- The nodes of a decomposition under way have ranks that are not below its bound. -/
theorem Sound.le_of_rank_eq {n : Node sp} (hn : n ∈ d.graph.nodes) (hkind : n.kind ≠ .initial)
    {r : Nat} (hr : n.rank = some r) : bound ≤ r := by
  obtain ⟨items, horigin⟩ := hd.origin
  obtain ⟨q, hq, hrank, hfrom⟩ := horigin n hn (hd.wellFormed.id_ne_initialId hn hkind)
  rw [hfrom.rank_eq, hrank, Option.some.injEq] at hr
  omega

include hqueue

/-- The rank that is taken up is lower than those before it. -/
theorem Descending.takeUp (h : d.Descending) :
    (takeUp g ranking item ({ d with queue := rest } : Decomposition sp)).Descending := by
  obtain ⟨hgraph, hrest, hdone⟩ : _ ∧ (Decomposition.takeUp g ranking item
    ({ d with queue := rest } : Decomposition sp)).queue = _ ∧ _ := takeUp_spec _ _
  exact {
    started_eq := by
      rw [filterMap_takeUp fun _ _ _ ↦ rfl, hdone]
      exact congrArg (item.node.rank :: ·) h.started_eq
    done_lt := by
      rw [hdone]
      exact List.pairwise_cons.mpr ⟨fun r hr ↦ Nat.lt_of_lt_of_le
        (hd.below item (hqueue ▸ List.mem_cons_self)) (hd.done r hr), h.done_lt⟩
    emitted_eq := by
      rw [filterMap_takeUp fun _ _ _ ↦ rfl, hgraph]
      exact h.emitted_eq
    roles_nodup := by
      rw [hgraph]
      exact h.roles_nodup
    sources := fun i hi id hid ↦ by
      rw [hrest] at hi
      rw [hgraph]
      exact h.sources i (hqueue ▸ List.mem_cons_of_mem _ hi) id hid
    descends := by
      rw [hgraph]
      exact h.descends }

/-- The parts of the rank that is taken up are new. -/
theorem nodup_roles_append (h : d.Descending) {news : List (Node sp)}
    (hrank : ∀ n ∈ news, n.rank = some item.node.rank) (hkind : ∀ n ∈ news, n.kind ≠ .initial)
    (hnews : news.Pairwise fun n m ↦ n.kind ≠ m.kind) :
    ((d.graph.nodes ++ news).filterMap Node.role?).Nodup := by
  have hlt := hd.below item (hqueue ▸ List.mem_cons_self)
  rw [List.filterMap_append]
  refine List.Nodup.append h.roles_nodup ?_ fun role hold hnew ↦ ?_
  · refine List.pairwise_filterMap.mpr (hnews.imp fun {n m} hnm => ?_)
    rintro ⟨r, k⟩ hn ⟨q, l⟩ hm heq
    rw [Prod.mk.injEq] at heq
    exact hnm ((Node.role?_eq_some.mp hn).2.trans (heq.2.trans (Node.role?_eq_some.mp hm).2.symm))
  · obtain ⟨n, hn, hnr⟩ := List.mem_filterMap.mp hold
    obtain ⟨m, hm, hmr⟩ := List.mem_filterMap.mp hnew
    obtain ⟨r, k⟩ := role
    obtain ⟨hnr, hnk⟩ := Node.role?_eq_some.mp hnr
    obtain ⟨hmr, hmk⟩ := Node.role?_eq_some.mp hmr
    have hle := hd.le_of_rank_eq hn (hnk.trans hmk.symm ▸ hkind m hm) hnr
    rw [hrank m hm, Option.some.injEq] at hmr
    omega

variable {d₁ : Decomposition sp} {emitted : List Nat} {na nc nd : List (Node sp)}
  (he : Extends g ranking item { d with queue := rest } d₁ emitted na nc nd)

include he

omit hd hqueue in
theorem Extends.rank_eq {n : Node sp} (hn : n ∈ na ++ nc ++ nd) : n.rank = some item.node.rank :=
  (he.from_item hn).rank_eq

omit hd hqueue in
/-- An edge from an earlier new node to a later one follows the order of the parts. -/
theorem Extends.before_of_later {n m : Node sp} (hn : n ∈ d₁.graph.nodes)
    (hm : m ∈ d₁.graph.nodes) (hlater : (n.id, m.id) ∈ laterPairs emitted) : n.Before m := by
  have hpairs : emitted.Pairwise fun a b ↦
      ∀ n ∈ d₁.graph.nodes, ∀ m ∈ d₁.graph.nodes, n.id = a → m.id = b → n.Before m := by
    rw [he.emitted_eq, List.pairwise_map]
    refine he.ordered.imp_of_mem fun {n' m'} hn' hm' hlt n hn m hm hnid hmid ↦ ?_
    rw [he.wellFormed.eq_of_id_eq hn (he.mem_nodes hn') hnid,
      he.wellFormed.eq_of_id_eq hm (he.mem_nodes hm') hmid]
    exact ⟨_, _, he.rank_eq hn', he.rank_eq hm', Or.inr ⟨rfl, hlt⟩⟩
  exact rel_of_mem_laterPairs hpairs hlater n hn m hm rfl rfl

omit hd in
/-- An edge from a source to a new node goes to a lower rank, unless it comes from the initial
node. -/
theorem Descending.before_of_source (h : d.Descending) {n m : Node sp} (hn : n ∈ d₁.graph.nodes)
    (hm : m ∈ d₁.graph.nodes) (h0 : n.id ≠ Graph.initialId) (hsource : n.id ∈ item.sources)
    (htarget : m.id ∈ emitted) : n.Before m := by
  obtain ⟨m', hm', hmid⟩ := List.mem_map.mp (he.emitted_eq ▸ htarget)
  have hmr := he.rank_eq hm'
  rw [he.wellFormed.eq_of_id_eq (he.mem_nodes hm') hm hmid] at hmr
  rcases h.sources item (hqueue ▸ List.mem_cons_self) n.id hsource with
    hroot | ⟨n', hn', hnid, r, hr, hlt⟩
  · exact absurd hroot h0
  · rw [he.wellFormed.eq_of_id_eq (he.nodes_eq ▸ List.mem_append_left _ hn') hn hnid] at hr
    exact ⟨r, item.node.rank, hr, hmr, Or.inl hlt⟩

/-- **New edges go down.** -/
theorem Descending.descends_extends (h : d.Descending) : d₁.graph.Descends := by
  have hwf : ({ d with queue := rest } : Decomposition sp).graph.WellFormed := hd.wellFormed
  intro n hn m hm hn0 hm0 hjoins
  rcases (he.joins n.id m.id).mp hjoins with hold | ⟨hcandidate, -, -⟩
  · obtain ⟨⟨n', hn', hnid⟩, ⟨m', hm', hmid⟩, -⟩ := hwf.ends n.id m.id hold
    have hmem : ∀ k ∈ d.graph.nodes, k ∈ d₁.graph.nodes := fun k hk ↦
      he.nodes_eq ▸ List.mem_append_left _ hk
    rw [he.wellFormed.eq_of_id_eq (hmem n' hn') hn hnid] at hn'
    rw [he.wellFormed.eq_of_id_eq (hmem m' hm') hm hmid] at hm'
    exact h.descends n hn' m hm' hn0 hm0 hold
  · rcases mem_edgeCandidates.mp hcandidate with ⟨hsource, htarget⟩ | hlater
    · exact h.before_of_source hqueue he hn hm hn0 hsource htarget
    · exact he.before_of_later hn hm hlater

/-- The nodes and edges of the rank that is taken up go down. -/
theorem Descending.extends (h : d.Descending) : d₁.Descending := by
  have hwf : ({ d with queue := rest } : Decomposition sp).graph.WellFormed := hd.wellFormed
  have hrank : ∀ n ∈ na ++ nc ++ nd, n.rank = some item.node.rank := fun _ hn ↦ he.rank_eq hn
  have hkind : ∀ n ∈ na ++ nc ++ nd, n.kind ≠ .initial := fun n hn h0 ↦
    he.id_ne_initialId hwf hn ((he.wellFormed.initial_iff n (he.mem_nodes hn)).mp h0)
  have hnodes : d₁.graph.nodes = d.graph.nodes ++ (na ++ nc ++ nd) := he.nodes_eq
  obtain ⟨hgraph, hrest, hdone⟩ : _ ∧ (Decomposition.takeUp g ranking item
    ({ d with queue := rest } : Decomposition sp)).queue = _ ∧ _ := takeUp_spec _ _
  have htaken : (Decomposition.takeUp g ranking item _).Descending := h.takeUp hd hqueue
  exact {
    started_eq := by rw [he.log_eq, started_emits, htaken.started_eq, hdone, he.done_eq]
    done_lt := by
      rw [he.done_eq, ← hdone]
      exact htaken.done_lt
    emitted_eq := by rw [he.log_eq, htaken.emitted_emits hrank, hgraph, hnodes]
    roles_nodup := hnodes ▸ nodup_roles_append hd hqueue h hrank hkind
      (he.ordered.imp fun hlt heq ↦ Nat.ne_of_lt hlt (congrArg NodeKind.place heq))
    sources := fun i hi id hid ↦ by
      rw [he.queue_eq, ← hrest] at hi
      refine (htaken.sources i hi id hid).imp_right ?_
      rintro ⟨n, hn, hn'⟩
      exact ⟨n, hnodes ▸ List.mem_append_left _ (hgraph ▸ hn), hn'⟩
    descends := h.descends_extends hd hqueue he }

omit he

variable {o : Options} (hg : g.Shaped) (ho : g.OfStates) (hr : g.ranking? = some ranking)

include hg ho hr

/-- **Taking up a rank goes down.** -/
theorem Descending.process (h : d.Descending)
    (hok : ({ d with queue := rest } : Decomposition sp).process g o ranking item = .ok d') :
    d'.Descending := by
  obtain ⟨d₁, emitted, na, nc, nd, he, d₂, paths, nodes, hsuccessors, rfl⟩ :=
    exists_extends_of_process hg ho hr hd hqueue hok
  have hkept : d₂.Descending ∧ d₂.graph = d₁.graph := by
    refine queueSuccessors_induction (P := fun d' ↦ d'.Descending ∧ d'.graph = d₁.graph)
      (fun d' other hother id hid n cells hn hne hmeets ⟨h', hgraph⟩ ↦ ⟨?_, hgraph⟩)
      ⟨h.extends hd hqueue he, rfl⟩ hsuccessors
    have hnew := he.mem_of_node? hid (hgraph ▸ hn)
    have hlt := rank_lt_of_meets hg hr
      (fun i hi ↦ (he.from_item hnew).image_subset hg ho hi) hother hne hmeets
    obtain ⟨hmem, rfl⟩ := Graph.mem_of_node?_eq_some hn
    exact (h'.enqueue _ (Or.inr ⟨n, hmem, rfl, _, he.rank_eq hnew, hlt⟩)).report rfl rfl
  exact hkept.1.report rfl rfl

/-- **A rank that breaks off** is lower than those before it, and one of its parts at most has been
added; and it does not break off for what it leads to. -/
theorem orderly_of_process_eq_error (h : d.Descending) {e : Halt}
    (herror : ({ d with queue := rest } : Decomposition sp).process g o ranking item = .error e) :
    Orderly e.log ∧ ¬e.cause.Reenters := by
  have htaken : (takeUp g ranking item ({ d with queue := rest } : Decomposition sp)).Descending :=
    h.takeUp hd hqueue
  cases hv : (item.split g (lower ranking item.node)).tracing.violation with
  | some v =>
    rw [process_of_violation hv, Except.error.injEq] at herror
    obtain ⟨w, hw⟩ := Maze.exists_of_violation_trace hv
    rw [← herror]
    exact ⟨htaken.orderly, Walk.not_reenters hw⟩
  | none =>
    cases hbody : cycleBody g o item.node.rank (item.split g (lower ranking item.node)) with
    | ok body =>
      obtain ⟨d', hok, -⟩ := exists_process hg ho hr hd hqueue hv hbody
      rw [hok] at herror
      cases herror
    | error v =>
      rw [process_of_refused hv hbody, Except.error.injEq] at herror
      have hgraph : (takeUp g ranking item ({ d with queue := rest } : Decomposition sp)).graph
          = d.graph := (takeUp_spec _ _).1
      obtain ⟨news, hemits, -⟩ := emits_emit (hgraph ▸ hd.wellFormed) item.node.rank
        (item.split g (lower ranking item.node)).tracing.inner
        (item.split g (lower ranking item.node)).approach .attractorNotFromCycle
        (fun h ↦ by cases h) []
      have hrank : ∀ n ∈ news, n.rank = some item.node.rank := fun n hn ↦ (hemits.of_part n hn).1
      have hkind : ∀ n ∈ news, n.kind ≠ .initial := fun n hn ↦ by
        rw [Node.kind, (hemits.of_part n hn).2.2.2.1]
        exact fun h ↦ by cases h
      rw [← herror]
      refine ⟨⟨?_, ?_⟩, not_reenters_of_cycleBody hbody⟩
      · rw [hemits.log_eq, started_emits]
        exact htaken.orderly.started
      · rw [hemits.log_eq, htaken.emitted_emits hrank, hgraph]
        exact List.nodup_reverse.mpr
          (nodup_roles_append hd hqueue h hrank hkind (hemits.single.imp False.elim))

end Process

/-! ## All ranks -/

/-- What has been reported when a decomposition ends or breaks off. -/
def finalLog : Except Halt (Decomposition sp) → List Event
  | .ok d => d.log
  | .error e => e.log

section Run

variable {o : Options} (hg : g.Shaped) (ho : g.OfStates) (hr : g.ranking? = some ranking)

include hg ho hr

/-- **A run is orderly**, however it ends, and it does not break off for re-entering a rank. -/
theorem orderly_of_run {fuel bound : Nat} {d : Decomposition sp} (hd : d.Sound g ranking bound)
    (h : d.Descending) : Orderly (finalLog (d.run g o ranking fuel)) ∧
      ∀ e, d.run g o ranking fuel = .error e → ¬e.cause.Reenters := by
  induction fuel generalizing bound d with
  | zero => exact ⟨h.orderly, fun _ he ↦ by cases he⟩
  | succ fuel ih =>
    rw [run]
    split
    · exact ⟨h.orderly, fun _ he ↦ by cases he⟩
    · rename_i item rest hqueue
      cases hp : ({ d with queue := rest } : Decomposition sp).process g o ranking item with
      | error e =>
        obtain ⟨horderly, hcause⟩ := orderly_of_process_eq_error hd hqueue hg ho hr h hp
        exact ⟨horderly, fun _ he ↦ Except.error.inj he ▸ hcause⟩
      | ok d' =>
        exact ih (advances_of_process hg ho hr hd hqueue hp).sound (h.process hd hqueue hg ho hr hp)

/-- **A decomposition is orderly**, however it ends. -/
theorem orderly_of_decompose (o : Options) : Orderly (finalLog (g.decompose o ranking)) ∧
    ∀ e, g.decompose o ranking = .error e → ¬e.cause.Reenters :=
  orderly_of_run hg ho hr (sound_start hg ho hr).1 descending_start

/-- **A decomposition has gone down** when it ends. -/
theorem descending_of_decompose (hd : g.decompose o ranking = .ok d) : d.Descending :=
  (run_induction hg ho hr (P := Descending)
    (fun hd hqueue hok _ h ↦ h.process hd hqueue hg ho hr hok) (sound_start hg ho hr).1
    descending_start (remaining_le ranking g.numRanks) hd).2.2

end Run

end Decomposition

end JusticeViolation

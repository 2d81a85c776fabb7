import JusticeViolation.Proofs.Game.Solution
import JusticeViolation.Proofs.Graph.Merging
import Mathlib.Data.List.Perm.Subperm

/-!
# The search for chains comes to an end

Three loops are at work when chains are merged: the search for nodes to look at, and for every child
that may be folded a search for the nodes that can be reached and a count of the paths to them. Each
has a number of rounds for a bound. Here they are run without one, and come to their end all the
same. A search looks at no number twice, and the numbers that it meets are those of nodes. A count
goes on with a node when its last edge has been followed. An edge is followed once, so a node comes
up for it once, and there are no more rounds than nodes.
-/

namespace JusticeViolation

/-- A loop that goes on by `next` as long as it can leads from one state to its end in another, and
what there is to be done in each of its rounds comes to an end. -/
inductive Loops {σ : Type} (next : σ → Option σ) (ends : σ → Prop) : σ → σ → Prop
  | stop {s : σ} : next s = none → Loops next ends s s
  | round {s t u : σ} : ends s → next s = some t → Loops next ends t u → Loops next ends s u

namespace Graph

variable {sp : Space} {g : Game sp} {graph : Graph sp}

/-! ## Unseen numbers -/

theorem mem_of_nextUnseen? {seen queue rest : List Nat} {id : Nat}
    (h : nextUnseen? seen queue = some (id, rest)) :
    id ∈ queue ∧ id ∉ seen ∧ ∀ k ∈ rest, k ∈ queue := by
  obtain ⟨hid, front, -, rfl⟩ := Merging.nextUnseen?_eq_some h
  exact ⟨List.mem_append_right _ List.mem_cons_self, hid,
    fun k hk ↦ List.mem_append_right _ (List.mem_cons_of_mem _ hk)⟩

/-- The numbers of a list that have not been seen. -/
def unseen (all seen : List Nat) : Nat := all.countP fun id ↦ decide (id ∉ seen)

theorem unseen_lt {all seen seen' : List Nat} {id : Nat} (hall : id ∈ all) (hid : id ∉ seen)
    (hseen : ∀ k, k ∈ seen' ↔ k = id ∨ k ∈ seen) : unseen all seen' < unseen all seen := by
  refine countP_lt_countP (fun k _ hk ↦ ?_) hall ?_ (decide_eq_true hid)
  · rw [decide_eq_true_iff, hseen, not_or] at hk
    exact decide_eq_true hk.2
  · rw [decide_eq_true_iff, not_not]
    exact (hseen id).mpr (Or.inl rfl)

/-! ## What can be reached -/

/-- One round of the search for what can be reached: the queue, and what has been reached. -/
def reachNext (graph : Graph sp) : List Nat × List Nat → Option (List Nat × List Nat) :=
  fun (queue, reached) ↦ (nextUnseen? reached queue).map fun (id, queue) ↦
    (queue ++ graph.children id, insertAscending id reached)

private theorem loops_reachFrom (all : List Nat)
    (hall : ∀ id, ∀ child ∈ graph.children id, child ∈ all) {fuel : Nat}
    {queue reached : List Nat} (hqueue : ∀ id ∈ queue, id ∈ all)
    (hfuel : unseen all reached ≤ fuel) :
    ∃ rest, Loops graph.reachNext (fun _ ↦ True) (queue, reached)
      (rest, graph.reachFrom fuel queue reached) := by
  induction fuel generalizing queue reached with
  | zero =>
    refine ⟨queue, .stop ?_⟩
    cases hnext : nextUnseen? reached queue with
    | none => rw [reachNext, hnext, Option.map_none]
    | some p =>
      obtain ⟨hid, hnew, -⟩ := mem_of_nextUnseen? hnext
      have hlt : unseen all (p.1 :: reached) < unseen all reached :=
        unseen_lt (hqueue p.1 hid) hnew fun k ↦ List.mem_cons
      omega
  | succ fuel ih =>
    rw [reachFrom]
    split
    · rename_i hnext
      exact ⟨queue, .stop (by rw [reachNext, hnext, Option.map_none])⟩
    · rename_i id queue' hnext
      obtain ⟨hid, hnew, hrest⟩ := mem_of_nextUnseen? hnext
      have hlt : unseen all (insertAscending id reached) < unseen all reached :=
        unseen_lt (hqueue id hid) hnew fun k ↦ mem_insertAscending
      have hqueue' : ∀ k ∈ queue' ++ graph.children id, k ∈ all := fun k hk ↦
        (List.mem_append.mp hk).elim (fun hk ↦ hqueue k (hrest k hk)) (hall id k)
      obtain ⟨rest, hloops⟩ := ih hqueue' (Nat.lt_succ_iff.mp (hlt.trans_le hfuel))
      exact ⟨rest, .round trivial (by rw [reachNext, hnext, Option.map_some]) hloops⟩

/-- **The search for what can be reached ends**, in every graph. -/
theorem exists_loops_reachedFrom (graph : Graph sp) (id : Nat) :
    ∃ rest, Loops graph.reachNext (fun _ ↦ True) ([id], []) (rest, graph.reachedFrom id) := by
  refine loops_reachFrom (id :: graph.mentioned) (fun a b hb ↦ ?_) (fun k hk ↦ ?_) ?_
  · obtain ⟨e, he, -, rfl⟩ := mem_children.mp hb
    refine List.mem_cons_of_mem _ (List.mem_append_right _ (List.mem_flatMap.mpr ⟨e, he, ?_⟩))
    exact List.mem_cons_of_mem _ List.mem_cons_self
  · exact List.mem_singleton.mp hk ▸ List.mem_cons_self
  · exact List.countP_le_length

theorem nodup_reachedFrom (graph : Graph sp) (id : Nat) : (graph.reachedFrom id).Nodup := by
  have key : ∀ (fuel : Nat) (queue reached : List Nat), reached.Pairwise (· < ·) →
      (graph.reachFrom fuel queue reached).Pairwise (· < ·) := by
    intro fuel
    induction fuel with
    | zero => exact fun _ _ h ↦ h
    | succ fuel ih =>
      intro queue reached h
      rw [reachFrom]
      split
      · exact h
      · exact ih _ _ (pairwise_insertAscending _ h)
  exact (key _ _ _ List.Pairwise.nil).imp fun hlt ↦ Nat.ne_of_lt hlt

/-! ## Counting paths -/

/-- The counts that the count of paths from a node begins with. -/
def startCounts (graph : Graph sp) (source : Nat) : List PathCount :=
  (graph.reachedFrom source).map fun id ↦
    ⟨id, ((graph.edges.filter fun e ↦
      e.target == id && (graph.reachedFrom source).contains e.source).length),
      if id = source then 1 else 0⟩

/-- The nodes that the count of paths from a node begins with. -/
def startReady (graph : Graph sp) (source : Nat) : List Nat :=
  ((graph.startCounts source).filter (·.pending == 0)).map (·.id)

/-- The counts in the end. -/
def finalCounts (graph : Graph sp) (source : Nat) : List PathCount :=
  graph.countFrom (graph.reachedFrom source).length (graph.startReady source)
    (graph.startCounts source)

/-- One round of the count of paths: the nodes whose counts are final, and all counts. -/
def countNext (graph : Graph sp) :
    List Nat × List PathCount → Option (List Nat × List PathCount)
  | ([], _) => none
  | (id :: ready, counts) =>
    let here := ((counts.find? (·.id == id)).map (·.paths)).getD 0
    let counts := followEdges here (graph.children id) counts
    some (ready ++ (graph.children id).filter fun child ↦
      counts.any fun c ↦ c.id == child && c.pending == 0, counts)

/-- The number of edges to a node from nodes that are reached and not yet done. -/
def pendingEdges (graph : Graph sp) (reached done : List Nat) (target : Nat) : Nat :=
  graph.edges.countP fun e ↦
    e.target == target && reached.contains e.source && !done.contains e.source

/-- When a node is done, its edges have been followed. -/
theorem pendingEdges_eq {reached done : List Nat} {id : Nat} (hid : id ∈ reached)
    (hnew : id ∉ done) (target : Nat) :
    graph.pendingEdges reached done target = (graph.children id).count target +
      graph.pendingEdges reached (id :: done) target := by
  unfold pendingEdges children
  rw [List.count_eq_countP, List.countP_map]
  induction graph.edges with
  | nil => rfl
  | cons e es ih =>
    rw [List.countP_cons, List.countP_cons, ih]
    by_cases hsource : e.source = id
    · have hbefore : (e.target == target && reached.contains e.source && !done.contains e.source)
          = (e.target == target) := by
        simp [hsource, hid, hnew]
      have hafter : (e.target == target && reached.contains e.source &&
          !(id :: done).contains e.source) = false := by
        simp [hsource]
      have hfilter : (e :: es).filter (·.source == id) = e :: es.filter (·.source == id) :=
        List.filter_cons_of_pos (beq_iff_eq.mpr hsource)
      rw [hbefore, hafter, hfilter, List.countP_cons, if_neg Bool.false_ne_true]
      simp only [Function.comp_apply]
      omega
    · have hdone : (id :: done).contains e.source = done.contains e.source := by
        rw [List.contains_cons, beq_eq_false_iff_ne.mpr hsource, Bool.false_or]
      have hfilter : (e :: es).filter (·.source == id) = es.filter (·.source == id) :=
        List.filter_cons_of_neg (by rwa [beq_iff_eq])
      rw [hfilter, hdone]
      omega

theorem pairwise_children (h : graph.Sorted) (id : Nat) :
    (graph.children id).Pairwise (· < ·) := by
  rw [children, List.pairwise_map]
  refine (h.filter _).imp_of_mem fun {e f} he hf hlt ↦ ?_
  rw [pairLt_iff, beq_iff_eq.mp (List.mem_filter.mp he).2,
    beq_iff_eq.mp (List.mem_filter.mp hf).2] at hlt
  omega

/-- What is known of a count under way: `done` have been dealt with, those in `ready` are next. -/
structure Counting (graph : Graph sp) (reached done ready : List Nat) (counts : List PathCount) :
    Prop where
  ids : counts.map (·.id) = reached
  pending : ∀ c ∈ counts, c.pending = graph.pendingEdges reached done c.id
  nodup : (done ++ ready).Nodup
  settled : ∀ id ∈ done ++ ready, id ∈ reached ∧ graph.pendingEdges reached done id = 0

namespace Counting

variable {reached done ready : List Nat} {counts : List PathCount} {id : Nat}

/-- There are no more nodes to deal with than are reached. -/
theorem length_le (h : graph.Counting reached done ready counts) :
    done.length + ready.length ≤ reached.length := by
  have hsub := List.subperm_of_subset h.nodup fun id hid ↦ (h.settled id hid).1
  rw [← List.length_append]
  exact hsub.length_le

/-- **One round of the count.** -/
theorem step (hs : graph.Sorted) (h : graph.Counting reached done (id :: ready) counts)
    (here : Nat) :
    graph.Counting reached (id :: done)
      (ready ++ (graph.children id).filter fun child ↦
        (followEdges here (graph.children id) counts).any fun c ↦
          c.id == child && c.pending == 0)
      (followEdges here (graph.children id) counts) := by
  have hmem : id ∈ done ++ id :: ready := List.mem_append_right _ List.mem_cons_self
  have hnodup : (id :: (done ++ ready)).Nodup := List.nodup_middle.mp h.nodup
  obtain ⟨hid, hrest⟩ := List.nodup_cons.mp hnodup
  have hnew : id ∉ done := fun hd ↦ hid (List.mem_append_left _ hd)
  have hedges : ∀ target, graph.pendingEdges reached done target =
      (graph.children id).count target + graph.pendingEdges reached (id :: done) target :=
    pendingEdges_eq (h.settled id hmem).1 hnew
  have hchildren : (graph.children id).Nodup :=
    (pairwise_children hs id).imp fun hlt ↦ Nat.ne_of_lt hlt
  have hcount : ∀ child ∈ graph.children id, (graph.children id).count child = 1 :=
    fun child hchild ↦ List.count_eq_one_of_mem hchildren hchild
  have hpending : ∀ c ∈ followEdges here (graph.children id) counts,
      c.pending = graph.pendingEdges reached (id :: done) c.id := by
    intro c hc
    obtain ⟨d, hd, rfl⟩ := List.mem_map.mp hc
    have hd' := h.pending d hd
    rw [hedges] at hd'
    split
    · rename_i hchild
      rw [hcount _ hchild] at hd'
      dsimp only
      omega
    · rename_i hchild
      rw [List.count_eq_zero.mpr hchild, Nat.zero_add] at hd'
      exact hd'
  have hids : (followEdges here (graph.children id) counts).map (·.id) = reached := by
    rw [← h.ids, followEdges, List.map_map]
    refine List.map_congr_left fun c _ ↦ ?_
    rw [Function.comp_apply]
    split <;> rfl
  -- a child that comes up now had an edge to be followed before
  have hfresh : ∀ child ∈ (graph.children id).filter fun child ↦
      (followEdges here (graph.children id) counts).any fun c ↦ c.id == child && c.pending == 0,
      child ∉ done ++ id :: ready ∧ child ∈ reached ∧
        graph.pendingEdges reached (id :: done) child = 0 := by
    intro child hchild
    obtain ⟨hchild, hany⟩ := List.mem_filter.mp hchild
    obtain ⟨c, hc, hzero⟩ := List.any_eq_true.mp hany
    rw [Bool.and_eq_true, beq_iff_eq, beq_iff_eq] at hzero
    obtain ⟨rfl, hzero⟩ := hzero
    refine ⟨fun hsettled ↦ ?_, hids ▸ List.mem_map_of_mem hc, hpending c hc ▸ hzero⟩
    have hsame := (h.settled c.id hsettled).2
    rw [hedges, hcount _ hchild] at hsame
    omega
  exact {
    ids := hids
    pending := hpending
    nodup := by
      rw [List.cons_append, ← List.append_assoc, ← List.cons_append, List.nodup_append]
      refine ⟨hnodup, hchildren.filter _, fun k hk child hchild heq ↦ ?_⟩
      refine (hfresh child hchild).1 (heq ▸ ?_)
      exact List.perm_middle.mem_iff.mpr hk
    settled := fun k hk ↦ by
      rw [List.cons_append, ← List.append_assoc, ← List.cons_append] at hk
      rcases List.mem_append.mp hk with hk | hk
      · obtain ⟨hreached, hzero⟩ := h.settled k (List.perm_middle.mem_iff.mpr hk)
        rw [hedges] at hzero
        exact ⟨hreached, by omega⟩
      · exact (hfresh k hk).2 }

/-- The count ends when it may take as many rounds as there are nodes left. -/
theorem loops (hs : graph.Sorted) {fuel : Nat} (h : graph.Counting reached done ready counts)
    (hfuel : reached.length ≤ fuel + done.length) :
    Loops graph.countNext (fun _ ↦ True) (ready, counts)
      ([], graph.countFrom fuel ready counts) := by
  induction fuel generalizing done ready counts with
  | zero =>
    have hle := h.length_le
    obtain rfl : ready = [] := List.eq_nil_of_length_eq_zero (by omega)
    exact .stop rfl
  | succ fuel ih =>
    cases ready with
    | nil => exact .stop rfl
    | cons id ready =>
      refine .round trivial rfl (ih (h.step hs _) ?_)
      rw [List.length_cons]
      omega

end Counting

theorem counting_start (graph : Graph sp) (source : Nat) :
    graph.Counting (graph.reachedFrom source) [] (graph.startReady source)
      (graph.startCounts source) := by
  have hids : (graph.startCounts source).map (·.id) = graph.reachedFrom source := by
    rw [startCounts, List.map_map]
    exact List.map_id _
  have hpending : ∀ c ∈ graph.startCounts source,
      c.pending = graph.pendingEdges (graph.reachedFrom source) [] c.id := by
    intro c hc
    obtain ⟨id, -, rfl⟩ := List.mem_map.mp hc
    rw [pendingEdges, ← List.countP_eq_length_filter]
    refine List.countP_congr fun e _ ↦ ?_
    rw [List.contains_nil, Bool.not_false, Bool.and_true]
  refine ⟨hids, hpending, ?_, fun id hid ↦ ?_⟩
  · rw [List.nil_append, startReady]
    refine (List.filter_sublist.map _).nodup ?_
    rw [hids]
    exact nodup_reachedFrom graph source
  · obtain ⟨c, hc, rfl⟩ := List.mem_map.mp hid
    obtain ⟨hc, hzero⟩ := List.mem_filter.mp hc
    exact ⟨hids ▸ List.mem_map_of_mem hc, hpending c hc ▸ beq_iff_eq.mp hzero⟩

/-- The loops by which the paths from a node are counted come to their ends, where the numbers of
paths are read off. -/
def CountsEnd (graph : Graph sp) (source : Nat) : Prop :=
  (∃ rest, Loops graph.reachNext (fun _ ↦ True) ([source], [])
    (rest, graph.reachedFrom source)) ∧
  Loops graph.countNext (fun _ ↦ True) (graph.startReady source, graph.startCounts source)
    ([], graph.finalCounts source) ∧
  ∀ target, graph.pathCount source target =
    if target ∉ graph.reachedFrom source then 0
    else match (graph.finalCounts source).find? (·.id == target) with
      | none => 0
      | some c => if 0 < c.pending then 2 else c.paths

/-- **Counting paths ends** wherever the edges are listed in order. -/
theorem countsEnd (hs : graph.Sorted) (source : Nat) : graph.CountsEnd source :=
  ⟨exists_loops_reachedFrom graph source,
    (counting_start graph source).loops hs (Nat.le_add_right _ _), fun _ ↦ rfl⟩

/-! ## The search for chains -/

namespace Merging

/-- One round of the search: the nodes that have been looked at, and what the search has found. -/
def next : List Nat × Merging sp → Option (List Nat × Merging sp) :=
  fun (seen, s) ↦ (nextUnseen? seen s.queue).map fun (id, queue) ↦
    (id :: seen, visit { s with queue } id)

/-- The paths to each of some children can be counted when the search comes to it. -/
def VisitEnds (id : Nat) : List Nat → Merging sp → Prop
  | [], _ => True
  | child :: children, s => s.graph.CountsEnd id ∧ VisitEnds id children (s.visitChild id child)

/-- What there is to be done in one round comes to an end. -/
def RoundEnds : List Nat × Merging sp → Prop :=
  fun (seen, s) ↦ ∀ id queue, nextUnseen? seen s.queue = some (id, queue) →
    ∀ n, s.graph.node? id = some n → n.kind.isAttractor = true →
      VisitEnds id (s.graph.children id) { s with queue }

variable {s : Merging sp}

private theorem visitEnds (hr : graph.Rooted) (hs : graph.Sorted) {id : Nat} {children : List Nat}
    (h : Stage graph s) (hid : s.Looks id)
    (hchildren : ∀ child ∈ children, (∃ m ∈ graph.nodes, m.id = child) ∧ id ≠ child) :
    VisitEnds id children s := by
  induction children generalizing s with
  | nil => trivial
  | cons child children ih =>
    obtain ⟨hchild, hne⟩ := hchildren child List.mem_cons_self
    obtain ⟨hstage, hid'⟩ := h.visitChild hr hid hchild hne
    exact ⟨countsEnd (h.sorted hs) id,
      ih hstage hid' fun c hc ↦ hchildren c (List.mem_cons_of_mem _ hc)⟩

private theorem loops_run (hr : graph.Rooted) (hs : graph.Sorted) {fuel : Nat} {seen : List Nat}
    (h : Stage graph s) (hfuel : unseen (graph.nodes.map (·.id)) seen ≤ fuel) :
    ∃ seen', Loops next RoundEnds (seen, s) (seen', run fuel seen s) := by
  have hnode : ∀ {id : Nat}, (∃ m ∈ graph.nodes, m.id = id) → id ∈ graph.nodes.map (·.id) :=
    fun ⟨m, hm, hid⟩ ↦ List.mem_map.mpr ⟨m, hm, hid⟩
  induction fuel generalizing seen s with
  | zero =>
    refine ⟨seen, .stop ?_⟩
    cases hnext : nextUnseen? seen s.queue with
    | none => rw [next, hnext, Option.map_none]
    | some p =>
      obtain ⟨-, hnew, -⟩ := mem_of_nextUnseen? hnext
      have hlt : unseen (graph.nodes.map (·.id)) (p.1 :: seen) < _ :=
        unseen_lt (hnode (h.dequeue hnext).2) hnew fun k ↦ List.mem_cons
      omega
  | succ fuel ih =>
    rw [run]
    split
    · rename_i hnext
      exact ⟨seen, .stop (by rw [next, hnext, Option.map_none])⟩
    · rename_i id queue hnext
      obtain ⟨hstage, hid⟩ := h.dequeue hnext
      obtain ⟨-, hnew, -⟩ := mem_of_nextUnseen? hnext
      have hlt : unseen (graph.nodes.map (·.id)) (id :: seen) < _ :=
        unseen_lt (hnode hid) hnew fun k ↦ List.mem_cons
      obtain ⟨seen', hloops⟩ := ih (hstage.visit hr id) (Nat.lt_succ_iff.mp (hlt.trans_le hfuel))
      refine ⟨seen', .round (fun id' queue' hnext' n hn hkind ↦ ?_)
        (by rw [next, hnext, Option.map_some]) hloops⟩
      rw [hnext, Option.some.injEq, Prod.mk.injEq] at hnext'
      obtain ⟨rfl, rfl⟩ := hnext'
      obtain ⟨hmem, hnid⟩ := mem_of_node?_eq_some hn
      exact visitEnds hr hs hstage ⟨n, hmem, hnid, hkind⟩
        fun _ hchild ↦ hstage.of_mem_children hchild

end Merging

/-- **The search for chains ends.** -/
theorem exists_loops_merging (hr : graph.Rooted) (hs : graph.Sorted) :
    ∃ seen, Loops Merging.next Merging.RoundEnds ([], ⟨graph, [initialId], [], []⟩)
      (seen, graph.merging) := by
  refine Merging.loops_run hr hs (Merging.stage_start hr) ?_
  have hle : unseen (graph.nodes.map (·.id)) [] ≤ (graph.nodes.map (·.id)).length :=
    List.countP_le_length
  rw [mentioned, List.length_append]
  omega

/-- **Merging makes a quotient.** For every graph with the initial node, the search for chains comes
to an end. What is left is the quotient by some partition of the nodes in which only attractors are
identified, numbered from 0 on with the initial node as number 0, and as many nodes have disappeared
as foldings are reported. -/
theorem mergeAttractors_quotient (hr : graph.Rooted) (hs : graph.Sorted) (refresh : Bool) :
    (∃ seen, Loops Merging.next Merging.RoundEnds ([], ⟨graph, [initialId], [], []⟩)
      (seen, graph.merging)) ∧
    ∃ f, Quotient f graph (graph.mergeAttractors g refresh) ∧
      (graph.mergeAttractors g refresh).nodes.map (·.id)
        = List.range (graph.mergeAttractors g refresh).nodes.length ∧
      (∃ n ∈ (graph.mergeAttractors g refresh).nodes, n.id = initialId ∧ n.kind = .initial) ∧
      (graph.mergeAttractors g refresh).nodes.length + graph.foldings.length
        = graph.nodes.length := by
  obtain ⟨⟨f, hf⟩, hlength, hids⟩ := exists_quotient_mergeAttractors (g := g) hr refresh
  exact ⟨exists_loops_merging hr hs, f, hf, hids,
    (hf.rooted hr (ascending_of_ids hids)).root, hlength⟩

/-- An attractor that leads to a cycle by itself and through another attractor. -/
def fork : Graph bits where
  nodes := [⟨0, none, .univ, ∅, [], .initial⟩,
    ⟨1, some 1, .literal ⟨0⟩ 0, .literal ⟨1⟩ 1, [], .attractorNotFromCycle⟩,
    ⟨2, some 1, .literal ⟨0⟩ 1, .literal ⟨1⟩ 0, [], .attractorFromCycle⟩,
    ⟨3, some 0, .literal ⟨2⟩ 1, .univ, [], .cycle none⟩]
  edges := [⟨0, 1, []⟩, ⟨1, 2, []⟩, ⟨1, 3, []⟩, ⟨2, 3, []⟩]

theorem rooted_fork : fork.Rooted where
  ascending := by decide
  ends := by
    have hends : ∀ e ∈ fork.edges, (∃ n ∈ fork.nodes, n.id = e.source) ∧
        (∃ n ∈ fork.nodes, n.id = e.target) ∧ e.source ≠ e.target := by decide
    rintro a b ⟨e, he, rfl, rfl⟩
    exact hends e he
  root := ⟨_, List.mem_cons_self, rfl, rfl⟩

theorem sorted_fork : fork.Sorted := by
  unfold Sorted
  decide

/-- The two attractors are folded into one, and their edges to the cycle become one. -/
theorem mergeAttractors_fork : fork.foldings = [(1, 2)] ∧
    ∃ f, Quotient f fork (fork.mergeAttractors Game.turns false) ∧
      (fork.mergeAttractors Game.turns false).nodes.map (·.id) = [0, 1, 2] := by
  have hfoldings : fork.foldings = [(1, 2)] := by decide +kernel
  obtain ⟨-, f, hf, hids, -, hlength⟩ :=
    mergeAttractors_quotient (g := Game.turns) rooted_fork sorted_fork false
  have hthree : (fork.mergeAttractors Game.turns false).nodes.length = 3 := by
    rw [hfoldings] at hlength
    exact Nat.succ_injective hlength
  exact ⟨hfoldings, f, hf, by rw [hids, hthree]; rfl⟩

end Graph

end JusticeViolation

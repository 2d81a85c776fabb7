import JusticeViolation.Proofs.Checked.Starts
import JusticeViolation.Proofs.Decomposition.Plain
import JusticeViolation.Proofs.Graph.Termination

/-!
# Decomposing in range

One rank after another is split, and what its nodes lead to is offered to the other ranks. That it
stays in range asks little of the queue: the start points of its items have cells, and none has more
rows than there are assumptions. That it ends asks that no rank in the queue is done. A rank that is
done is never queued again, for a node that leads to it breaks the decomposition off; so a rank is
done with every round that was not before, and there are no more rounds than ranks.

Nothing is asked of the sets. A node may lead to higher ranks, and a queue may grow upwards.
-/

namespace JusticeViolation

open Checked

variable {sp : Space}

/-- Why a checked decomposition breaks off: it does not end if a walk is endless. -/
def Halt.stop (h : Halt) : Stop := if h.cause.isEndless then .unfinished else .broken h

namespace Decomposition

variable (g : Game sp) (d : Decomposition sp)

/-! ## Edges and successors -/

/-- The edges to look for around new nodes. -/
def checkedEdgeCandidates (sources emitted : List Nat) : Checked (List (Nat × Nat)) := do
  let later ← emitted.zipIdx.mapM fun n ↦ do
    let behind ← dropTo emitted (n.2 + 1)
    return behind.map fun m ↦ (n.1, m)
  return (emitted.flatMap fun target ↦ sources.map fun source ↦ (source, target)) ++ later.flatten

/-- Offer what a node of `rank` leads to to another rank. -/
def checkedOffer (rank id : Nat) (image : StateSet sp) (d : Decomposition sp)
    (other : RankNode sp) : Checked (Decomposition sp) :=
  if other.rank = rank || !image.meets other.states then .ok d
  else if d.done.contains other.rank then
    .error (.broken ⟨.decomposedSuccessor rank other.rank, d.log⟩)
  else do
    let parts ← (g.item other).checkedParts image
    let d ← d.checkedEnqueue g other fun item ↦ item.checkedOffer image id
    return d.report (.successorQueued id other.rank parts.length)

/-- Offer what new nodes of `rank` lead to to all other ranks. -/
def checkedQueueSuccessors (ranking : Ranking sp) (rank : Nat) (emitted : List Nat) :
    Checked (Decomposition sp) :=
  emitted.foldlM (fun d id ↦
    match d.graph.node? id with
    | none => .ok d
    | some n =>
      let image := g.strip (g.image n.states n.transitions)
      ranking.nodes.foldlM (checkedOffer g rank id image) d) d

/-! ## One rank -/

/-- The node of a cycle, with an assumption graph if it is asked for. -/
def checkedCycleBody (o : Options) (rank : Nat) (s : Split sp) :
    Checked (Except Violation (NodeBody sp)) :=
  if o.assumptionGraphs && !s.cycle.isEmpty then do
    let a ← g.checkedAssumptionGraph rank s.cycle s.tracing.inner s.tracing.paths
    return a.map fun a ↦ .cycle (some a)
  else return .ok (.cycle none)

/-- Decompose one rank, each walk of it watched for `more` steps beyond the bound. -/
def checkedProcess (more : Nat) (o : Options) (ranking : Ranking sp) (item : Item sp) :
    Checked (Decomposition sp) := do
  let rank := item.node.rank
  let d := { d with done := rank :: d.done }.report (.rankStarted rank item.starts.length)
  let s ← item.checkedSplit g more (lower ranking item.node)
  let d := (s.tracing.events s.maze).foldl report d
  match s.tracing.violation with
  | some v => .error (.broken ⟨v, d.log⟩)
  | none =>
    let emit := emit rank s.tracing.inner
    let approach := emit s.approach .attractorNotFromCycle (d, [])
    match ← checkedCycleBody g o rank s with
    | .error v => .error (.broken ⟨v, approach.1.log⟩)
    | .ok body =>
      let all := emit s.descent .attractorFromCycle (emit s.cycle body approach)
      let candidates ← checkedEdgeCandidates item.sources all.2
      let graph := candidates.foldl (fun graph e ↦ connect g graph e.1 e.2) all.1.graph
      let d ← { all.1 with graph }.checkedQueueSuccessors g ranking rank all.2
      return d.report (.rankDecomposed rank s.tracing.walks.length all.2.length)

/-- Decompose the ranks in the queue, and those that are added to it. -/
def checkedRun (more : Nat) (o : Options) (ranking : Ranking sp) : (fuel : Nat) →
    Decomposition sp → Checked (Decomposition sp)
  | 0, _ => .error .unfinished
  | fuel + 1, d =>
    match d.queue with
    | [] => .ok d
    | item :: queue => do
      let d ← { d with queue }.checkedProcess g more o ranking item
      checkedRun more o ranking fuel d

end Decomposition

/-- Decompose all ranks, watched for `more` rounds beyond the bounds. -/
def Game.checkedDecompose (g : Game sp) (more : Nat) (o : Options) (ranking : Ranking sp) :
    Checked (Decomposition sp) := do
  let d ← Decomposition.checkedStart g ranking
  d.checkedRun g more o ranking (ranking.nodes.length + 1 + more)

namespace Decomposition

variable {g : Game sp} {d d' : Decomposition sp} {ranking : Ranking sp} {item : Item sp}
  {rest : List (Item sp)} {o : Options}

/-! ## Edges and successors in range -/

private theorem laterPairs_eq {emitted front behind : List Nat} (h : emitted = front ++ behind) :
    ((behind.zipIdx front.length).map fun n ↦ (emitted.drop (n.2 + 1)).map fun m ↦
      (n.1, m)).flatten = laterPairs behind := by
  induction behind generalizing front with
  | nil => rfl
  | cons n behind ih =>
    have hsplit : emitted = (front ++ [n]) ++ behind := by
      rw [h, List.append_assoc, List.singleton_append]
    have hbehind : emitted.drop (front.length + 1) = behind := by
      rw [hsplit]
      exact List.drop_left' (by rw [List.length_append, List.length_singleton])
    have hrest := ih hsplit
    rw [List.length_append, List.length_singleton] at hrest
    rw [List.zipIdx_cons, List.map_cons, List.flatten_cons, hrest, laterPairs, hbehind]

theorem checkedEdgeCandidates_eq (sources emitted : List Nat) :
    checkedEdgeCandidates sources emitted = .ok (edgeCandidates sources emitted) := by
  have hbehind : ∀ n ∈ emitted.zipIdx, (do
      let behind ← dropTo emitted (n.2 + 1)
      return behind.map fun m ↦ (n.1, m) : Checked (List (Nat × Nat))) =
      .ok ((emitted.drop (n.2 + 1)).map fun m ↦ (n.1, m)) := fun n hn ↦ by
    rw [dropTo_of_le (Nat.succ_le_of_lt (List.snd_lt_of_mem_zipIdx hn))]
    rfl
  rw [checkedEdgeCandidates, mapM_eq_ok hbehind, ok_bind, edgeCandidates,
    ← laterPairs_eq (List.nil_append emitted).symm]
  rfl

theorem checkedOffer_eq (rank id : Nat) (image : StateSet sp) (d : Decomposition sp)
    (other : RankNode sp) :
    checkedOffer g rank id image d other = (offer g rank id image d other).mapError Halt.stop := by
  rw [checkedOffer, offer]
  split
  · rfl
  · split
    · rfl
    · rw [Item.checkedParts_eq, ok_bind, checkedEnqueue_eq fun _ ↦ Item.checkedOffer_eq _ _]
      rfl

theorem checkedQueueSuccessors_eq (rank : Nat) (emitted : List Nat) :
    d.checkedQueueSuccessors g ranking rank emitted =
      (d.queueSuccessors g ranking rank emitted).mapError Halt.stop := by
  refine foldlM_mapError (fun d id _ ↦ ?_) d
  cases d.graph.node? id with
  | none => rfl
  | some n => exact foldlM_mapError (fun d other _ ↦ checkedOffer_eq rank id _ d other) d

/-! ## One rank in range -/

theorem checkedCycleBody_eq (hpos : 0 < g.numRows) (hrows : item.cells.length ≤ g.numRows)
    (lower : StateSet sp) :
    checkedCycleBody g o item.node.rank (item.split g lower) =
      .ok (cycleBody g o item.node.rank (item.split g lower)) := by
  rw [checkedCycleBody, cycleBody]
  split
  · rw [Item.checkedAssumptionGraph_eq hpos hrows]
    rfl
  · rfl

/-- What an assumption graph is refused for is not an endless walk. -/
theorem isEndless_of_cycleBody {rank : Nat} {s : Split sp} {v : Violation}
    (h : cycleBody g o rank s = .error v) : v.isEndless = false := by
  obtain ⟨s, t, rfl, -⟩ := Game.assumptionGraph_eq_error (cycleBody_eq_error h)
  rfl

/-- **A rank is decomposed in range.** -/
theorem checkedProcess_eq (hpos : 0 < g.numRows) (hrows : item.cells.length ≤ g.numRows)
    (h : item.Addressed) (more : Nat) (d : Decomposition sp) :
    d.checkedProcess g more o ranking item =
      (d.process g o ranking item).mapError Halt.stop := by
  rw [checkedProcess, Item.checkedSplit_eq h, Split.outcome]
  cases hv : (item.split g (lower ranking item.node)).tracing.violation with
  | some v =>
    rw [process_of_violation hv, Except.mapError, Halt.stop, Option.any_some]
    split
    · rfl
    · rw [ok_bind, hv]
      rfl
  | none =>
    rw [Option.any_none, if_neg Bool.false_ne_true, ok_bind, hv]
    dsimp only
    rw [checkedCycleBody_eq hpos hrows, ok_bind]
    cases hbody : cycleBody g o item.node.rank (item.split g (lower ranking item.node)) with
    | error v =>
      rw [process_of_refused hv hbody, Except.mapError, Halt.stop, isEndless_of_cycleBody hbody]
      rfl
    | ok body =>
      dsimp only
      rw [process_eq hv hbody, checkedEdgeCandidates_eq, ok_bind, checkedQueueSuccessors_eq]
      exact mapError_bind ((extend g ranking item body (takeUp g ranking item d)).1.queueSuccessors
        g ranking item.node.rank (extend g ranking item body (takeUp g ranking item d)).2) _ _

/-! ## All ranks in range -/

/-- What keeps a decomposition in range, and makes it end. -/
structure Ranged (g : Game sp) (ranking : Ranking sp) (d : Decomposition sp) : Prop where
  sorted : d.queue.Pairwise fun a b ↦ b.node.rank < a.node.rank
  not_done : ∀ item ∈ d.queue, item.node.rank ∉ d.done
  mem_nodes : ∀ item ∈ d.queue, item.node ∈ ranking.nodes
  addressed : ∀ item ∈ d.queue, item.Addressed
  rowed : d.Rowed g

theorem Ranged.report (h : d.Ranged g ranking) (e : Event) : (d.report e).Ranged g ranking :=
  ⟨h.sorted, h.not_done, h.mem_nodes, h.addressed, h.rowed⟩

section Ranged

variable (hs : g.Shaped)

include hs

/-- **A change of one item** that is not done, which keeps its rank and its cells. -/
theorem Ranged.enqueue (h : d.Ranged g ranking) {node : RankNode sp} {change : Item sp → Item sp}
    (hnode : node ∈ ranking.nodes) (hdone : node.rank ∉ d.done)
    (haddressed : ∀ item : Item sp, item.Addressed → (change item).Addressed)
    (hkeep : ∀ item, (change item).node = item.node ∧ (change item).cells = item.cells) :
    (d.enqueue g node change).Ranged g ranking where
  sorted := pairwise_changeItem (fun item ↦ (hkeep item).1) h.sorted
  not_done := forall_changeItem (by rw [(hkeep _).1]; exact hdone)
    (fun item hitem _ ↦ by rw [(hkeep item).1]; exact h.not_done item hitem) h.not_done
  mem_nodes := forall_changeItem (by rw [(hkeep _).1]; exact hnode)
    (fun item hitem _ ↦ by rw [(hkeep item).1]; exact h.mem_nodes item hitem) h.mem_nodes
  addressed := forall_changeItem (haddressed _ (Item.addressed_item g node))
    (fun item hitem _ ↦ haddressed item (h.addressed item hitem)) h.addressed
  rowed := h.rowed.enqueue hs node fun item ↦ (hkeep item).2

theorem ranged_start : (start g ranking).Ranged g ranking := by
  refine (start_induction (P := fun d ↦ d.Ranged g ranking ∧ d.done = []) ⟨?_, rfl⟩
    fun d node hnode ⟨h, hdone⟩ ↦ ⟨h.enqueue hs hnode ?_ (fun item hitem ↦ hitem.addStarts
      fun p hp ↦ exists_part_of_mem_initialStarts hp) fun _ ↦ ⟨rfl, rfl⟩, hdone⟩).1
  · exact {
      sorted := .nil
      not_done := fun _ hitem ↦ absurd hitem List.not_mem_nil
      mem_nodes := fun _ hitem ↦ absurd hitem List.not_mem_nil
      addressed := fun _ hitem ↦ absurd hitem List.not_mem_nil
      rowed := fun _ hitem ↦ absurd hitem List.not_mem_nil }
  · rw [hdone]
    exact List.not_mem_nil

/-- **Taking up a rank**: it is done then, and no rank in the queue is. -/
theorem Ranged.process (h : d.Ranged g ranking) (hqueue : d.queue = item :: rest)
    (hok : ({ d with queue := rest } : Decomposition sp).process g o ranking item = .ok d') :
    d'.Ranged g ranking ∧ d'.done = item.node.rank :: d.done := by
  obtain ⟨body, -, d'', _, _, rfl, hsuccessors⟩ := queueSuccessors_of_process hok
  generalize he : extend g ranking item body
    (takeUp g ranking item ({ d with queue := rest } : Decomposition sp)) = e at hsuccessors
  have hrest : e.1.queue = rest := by
    rw [← he]
    exact (extend_spec item body _).1.trans (takeUp_spec item _).2.1
  have hdone : e.1.done = item.node.rank :: d.done := by
    rw [← he]
    exact (extend_spec item body _).2.trans (takeUp_spec item _).2.2
  have hmem : ∀ i ∈ e.1.queue, i ∈ d.queue := fun i hi ↦
    hqueue ▸ List.mem_cons_of_mem _ (hrest ▸ hi)
  have hsorted := h.sorted
  rw [hqueue, List.pairwise_cons] at hsorted
  have hstart : e.1.Ranged g ranking := {
    sorted := hrest ▸ hsorted.2
    not_done := fun i hi hin ↦ by
      rw [hdone] at hin
      rcases List.mem_cons.mp hin with heq | hin
      · exact Nat.ne_of_lt (hsorted.1 i (hrest ▸ hi)) heq
      · exact h.not_done i (hmem i hi) hin
    mem_nodes := fun i hi ↦ h.mem_nodes i (hmem i hi)
    addressed := fun i hi ↦ h.addressed i (hmem i hi)
    rowed := fun i hi ↦ h.rowed i (hmem i hi) }
  obtain ⟨hranged, hdone'⟩ := queueSuccessors_induction_of_not_done
    (P := fun d' ↦ d'.Ranged g ranking ∧ d'.done = item.node.rank :: d.done)
    (fun d₁ other hother id _ n cells _ _ hnot _ ⟨h₁, hdone₁⟩ ↦
      ⟨(h₁.enqueue hs hother hnot (fun item hitem ↦ hitem.offer _ id) fun _ ↦ ⟨rfl, rfl⟩).report _,
        hdone₁⟩)
    ⟨hstart, hdone⟩ hsuccessors
  exact ⟨hranged.report _, hdone'⟩

/-- **A run is in range**, for however many rounds it is watched. It ends as it should, unless some
walk is endless. -/
theorem checkedRun_eq (more extra : Nat) {fuel : Nat} (h : d.Ranged g ranking)
    (hfuel : Graph.unseen (ranking.nodes.map (·.rank)) d.done < fuel) :
    d.checkedRun g more o ranking (fuel + extra) =
      (d.run g o ranking fuel).mapError Halt.stop := by
  induction fuel generalizing d with
  | zero => exact absurd hfuel (Nat.not_lt_zero _)
  | succ fuel ih =>
    rw [Nat.succ_add, checkedRun, run]
    cases hqueue : d.queue with
    | nil => rfl
    | cons item rest =>
      have hitem : item ∈ d.queue := hqueue ▸ List.mem_cons_self
      dsimp only
      rw [checkedProcess_eq hs.numRows_pos (h.rowed item hitem) (h.addressed item hitem)]
      cases hp : ({ d with queue := rest } : Decomposition sp).process g o ranking item with
      | error e => rfl
      | ok d' =>
        obtain ⟨h', hdone⟩ := h.process hs hqueue hp
        have hlt := Graph.unseen_lt (List.mem_map_of_mem (h.mem_nodes item hitem))
          (h.not_done item hitem) fun k ↦ List.mem_cons
        rw [← hdone] at hlt
        exact ih h' (hlt.trans_le (Nat.lt_succ_iff.mp hfuel))

end Ranged

end Decomposition

/-- **Ranks are decomposed in range**, for however many rounds they are watched. -/
theorem Game.checkedDecompose_eq {g : Game sp} (hs : g.Shaped) (more : Nat) (o : Options)
    (ranking : Ranking sp) :
    g.checkedDecompose more o ranking = (g.decompose o ranking).mapError Halt.stop := by
  rw [checkedDecompose, Decomposition.checkedStart_eq, ok_bind]
  exact Decomposition.checkedRun_eq hs more more (Decomposition.ranged_start hs)
    (Nat.lt_succ_of_le (List.countP_le_length.trans (List.length_map _).le))

end JusticeViolation

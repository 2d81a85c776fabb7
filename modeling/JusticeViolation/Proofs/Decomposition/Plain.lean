import JusticeViolation.Proofs.AssumptionGraph
import JusticeViolation.Proofs.Decomposition.Process
import JusticeViolation.Proofs.Graph.Plain

/-!
# Decomposing without assumption graphs

Whether assumption graphs are asked for shows in the bodies of cycle nodes alone, which nothing
looks at afterwards. So a decomposition with assumption graphs, once these are dropped, is the one
without them, unless an assumption graph is refused.
-/

namespace JusticeViolation.Decomposition

variable {sp : Space} {g : Game sp} {ranking : Ranking sp}

/-- A decomposition without assumption graphs. -/
def plain (d : Decomposition sp) : Decomposition sp := { d with graph := d.graph.plain }

variable {d : Decomposition sp}

/-! ## Nodes and edges -/

theorem plain_reports (events : List Event) (d : Decomposition sp) :
    (events.foldl report d).plain = events.foldl report d.plain := by
  induction events generalizing d with
  | nil => rfl
  | cons e events ih => exact ih (d.report e)

theorem plain_takeUp (item : Item sp) :
    (takeUp g ranking item d).plain = takeUp g ranking item d.plain :=
  plain_reports _ _

theorem plain_emit (rank : Nat) (inner states : StateSet sp) (body : NodeBody sp)
    (s : Decomposition sp × List Nat) :
    (emit rank inner states body s).map plain id
      = emit rank inner states body.plain (s.map plain id) := by
  obtain ⟨d, emitted⟩ := s
  rw [Prod.map_apply]
  unfold emit
  dsimp only
  split
  · rfl
  · rw [Prod.map_apply, show d.plain.graph = d.graph.plain from rfl, Graph.nextId_plain,
      NodeBody.kind_plain]
    refine Prod.ext ?_ rfl
    change Decomposition.mk (d.graph.addNode _).plain _ _ _ = _
    rw [Graph.plain_addNode]
    rfl

theorem plain_connect (graph : Graph sp) (source target : Nat) :
    (connect g graph source target).plain = connect g graph.plain source target := by
  unfold connect
  rw [Graph.edgeStates?_plain]
  split
  · exact Graph.plain_addEdge source target
  · rfl

theorem plain_connectAll (sources emitted : List Nat) :
    (d.connectAll g sources emitted).plain = d.plain.connectAll g sources emitted := by
  unfold connectAll plain
  dsimp only
  rw [List.foldl_hom Graph.plain fun graph pair ↦ (plain_connect graph pair.1 pair.2).symm]

theorem plain_extend (item : Item sp) (body : NodeBody sp) (d : Decomposition sp) :
    (extend g ranking item body d).map plain id = extend g ranking item body.plain d.plain := by
  have hemit : ∀ (rank : Nat) (s : Split sp),
      (emit rank s.tracing.inner s.descent .attractorFromCycle
        (emit rank s.tracing.inner s.cycle body
          (emit rank s.tracing.inner s.approach .attractorNotFromCycle (d, [])))).map plain id
        = emit rank s.tracing.inner s.descent .attractorFromCycle
          (emit rank s.tracing.inner s.cycle body.plain
            (emit rank s.tracing.inner s.approach .attractorNotFromCycle (d.plain, []))) := by
    intro rank s
    rw [plain_emit, plain_emit, plain_emit]
    rfl
  unfold extend
  dsimp only
  rw [Prod.map_apply, plain_connectAll, ← hemit]
  rfl

/-! ## Successors -/

/-- What a fold does without assumption graphs, if every step does so. -/
private theorem map_plain_foldlM {α : Type}
    {f : Decomposition sp → α → Except Halt (Decomposition sp)}
    (h : ∀ d a, (f d a).map plain = f d.plain a) (as : List α) (d : Decomposition sp) :
    (as.foldlM f d).map plain = as.foldlM f d.plain := by
  induction as generalizing d with
  | nil => rfl
  | cons a as ih =>
    rw [List.foldlM_cons, List.foldlM_cons, ← h]
    cases f d a with
    | error e => rfl
    | ok d' => exact ih d'

theorem map_plain_offer (rank id : Nat) (image : StateSet sp) (d : Decomposition sp)
    (other : RankNode sp) :
    (offer g rank id image d other).map plain = offer g rank id image d.plain other := by
  unfold offer
  split
  · rfl
  · split
    · rename_i hdone
      rw [if_pos (show d.plain.done.contains other.rank = true from hdone)]
      rfl
    · rename_i hdone
      rw [if_neg (show ¬d.plain.done.contains other.rank = true from hdone)]
      rfl

theorem map_plain_queueSuccessors (rank : Nat) (emitted : List Nat) (d : Decomposition sp) :
    (queueSuccessors g d ranking rank emitted).map plain
      = queueSuccessors g d.plain ranking rank emitted := by
  refine map_plain_foldlM (fun d id ↦ ?_) emitted d
  rw [show d.plain.graph = d.graph.plain from rfl, Graph.node?_plain]
  cases d.graph.node? id with
  | none => rfl
  | some n => exact map_plain_foldlM (map_plain_offer rank id _) ranking.nodes d

/-! ## One rank -/

/-- Without assumption graphs nothing can be refused; with them, the body is that of a cycle unless
its assumption graph is refused. -/
theorem cycleBody_cases (o : Options) {item : Item sp} (hrows : item.cells.length ≤ g.numRows)
    (lower : StateSet sp) :
    cycleBody g { o with assumptionGraphs := false } item.node.rank (item.split g lower)
        = .ok (.cycle none) ∧
      ((∃ body, body.plain = .cycle none ∧
        cycleBody g { o with assumptionGraphs := true } item.node.rank (item.split g lower)
          = .ok body) ∨
      2 < g.numRows ∧ ∃ s t, t ≠ (s + 1) % g.numRows ∧
        cycleBody g { o with assumptionGraphs := true } item.node.rank (item.split g lower)
          = .error (.nonConsecutiveAssumptions item.node.rank s t)) := by
  refine ⟨rfl, ?_⟩
  unfold cycleBody
  split
  · cases h : g.assumptionGraph item.node.rank (item.split g lower).cycle
      (item.split g lower).tracing.inner (item.split g lower).tracing.paths with
    | error v =>
      obtain ⟨htwo, s, t, rfl, hnext⟩ := Item.assumptionGraph_eq_error hrows h
      exact Or.inr ⟨htwo, s, t, hnext, rfl⟩
    | ok a => exact Or.inl ⟨.cycle (some a), rfl, rfl⟩
  · exact Or.inl ⟨.cycle none, rfl, rfl⟩

/-- A decomposition is refused for the steps of an assumption graph. -/
def Refused (g : Game sp) (result : Except Halt (Decomposition sp)) : Prop :=
  2 < g.numRows ∧ ∃ h r s t, result = .error h ∧ h.cause = .nonConsecutiveAssumptions r s t ∧
    t ≠ (s + 1) % g.numRows

/-- **One rank**, with and without assumption graphs. -/
theorem map_plain_process (o : Options) {item : Item sp} (hrows : item.cells.length ≤ g.numRows)
    (d : Decomposition sp) :
    Refused g (d.process g { o with assumptionGraphs := true } ranking item) ∨
      (d.process g { o with assumptionGraphs := true } ranking item).map plain
        = d.plain.process g { o with assumptionGraphs := false } ranking item := by
  cases hv : (item.split g (lower ranking item.node)).tracing.violation with
  | some v =>
    refine Or.inr ?_
    rw [process_of_violation hv, process_of_violation hv, ← plain_takeUp]
    rfl
  | none =>
    obtain ⟨hbare, ⟨body, hplain, hbody⟩ | ⟨htwo, s, t, hnext, hbody⟩⟩ :=
      cycleBody_cases o hrows (lower ranking item.node)
    · refine Or.inr ?_
      rw [process_eq hv hbody, process_eq hv hbare, ← plain_takeUp, ← hplain, ← plain_extend]
      dsimp only [Prod.map_fst, Prod.map_snd, id_eq]
      rw [← map_plain_queueSuccessors]
      cases queueSuccessors g (extend g ranking item body (takeUp g ranking item d)).1 ranking
        item.node.rank (extend g ranking item body (takeUp g ranking item d)).2 with
      | error e => rfl
      | ok d' => rfl
    · exact Or.inl ⟨htwo, _, _, s, t, process_of_refused hv hbody, rfl, hnext⟩

/-! ## All ranks -/

/-- The items of the queue have no more rows than the game. -/
def Rowed (g : Game sp) (d : Decomposition sp) : Prop :=
  ∀ item ∈ d.queue, item.cells.length ≤ g.numRows

section Rowed

variable (hs : g.Shaped)

include hs

theorem length_cells_le (rank : Nat) (states : StateSet sp) :
    (g.cells rank states).length ≤ g.numRows := by
  rw [Game.cells, List.length_map, List.getD_eq_getElem?_getD]
  cases h : g.progress[rank]? with
  | none => exact Nat.zero_le _
  | some matrix => exact (hs.length_matrix matrix (List.mem_of_getElem? h)).le

theorem Rowed.enqueue (h : d.Rowed g) (node : RankNode sp) {change : Item sp → Item sp}
    (hchange : ∀ item, (change item).cells = item.cells) : (d.enqueue g node change).Rowed g := by
  refine forall_changeItem ?_ (fun item hitem _ ↦ ?_) h
  · rw [hchange]
    exact length_cells_le hs _ _
  · rw [hchange]
    exact h item hitem

theorem rowed_start : (start g ranking).Rowed g :=
  start_induction (fun _ h ↦ absurd h List.not_mem_nil)
    fun _ node _ h ↦ h.enqueue hs node fun _ ↦ rfl

theorem Rowed.queueSuccessors {rank : Nat} {emitted : List Nat} {d' : Decomposition sp}
    (h : d.Rowed g) (hok : d.queueSuccessors g ranking rank emitted = .ok d') : d'.Rowed g :=
  queueSuccessors_induction (P := Rowed g)
    (fun _ other _ _ _ _ _ _ _ _ h ↦ h.enqueue hs other fun _ ↦ rfl) h hok

theorem Rowed.process {o : Options} {item : Item sp} {d' : Decomposition sp} (h : d.Rowed g)
    (hok : d.process g o ranking item = .ok d') : d'.Rowed g := by
  obtain ⟨body, -, d'', _, _, rfl, hq⟩ := queueSuccessors_of_process hok
  have hqueue : (extend g ranking item body (takeUp g ranking item d)).1.queue = d.queue :=
    (extend_spec item body _).1.trans (takeUp_spec item d).2.1
  have hrowed : (extend g ranking item body (takeUp g ranking item d)).1.Rowed g :=
    fun i hi ↦ h i (hqueue ▸ hi)
  change d''.Rowed g
  exact hrowed.queueSuccessors hs hq

/-- **All ranks**, with and without assumption graphs. -/
theorem map_plain_run (ranking : Ranking sp) (o : Options) (fuel : Nat) {d : Decomposition sp}
    (h : d.Rowed g) :
    Refused g (d.run g { o with assumptionGraphs := true } ranking fuel) ∨
      (d.run g { o with assumptionGraphs := true } ranking fuel).map plain
        = d.plain.run g { o with assumptionGraphs := false } ranking fuel := by
  induction fuel generalizing d with
  | zero => exact Or.inr rfl
  | succ fuel ih =>
    rw [run, run, show d.plain.queue = d.queue from rfl]
    split
    · exact Or.inr rfl
    · rename_i item rest hqueue
      have hrest : ({ d with queue := rest } : Decomposition sp).Rowed g := fun i hi ↦
        h i (hqueue ▸ List.mem_cons_of_mem _ hi)
      rcases map_plain_process o (h item (hqueue ▸ List.mem_cons_self)) { d with queue := rest }
        with ⟨htwo, e, r, s, t, herror, hcause, hnext⟩ | hplain
      · rw [herror]
        exact Or.inl ⟨htwo, e, r, s, t, rfl, hcause, hnext⟩
      · rw [show ({ d.plain with queue := rest } : Decomposition sp).process g
          { o with assumptionGraphs := false } ranking item = _ from hplain.symm]
        cases hp : ({ d with queue := rest } : Decomposition sp).process g
            { o with assumptionGraphs := true } ranking item with
        | error e => exact Or.inr rfl
        | ok d' => exact ih (hrest.process hs hp)

end Rowed

theorem plain_start : (start g ranking).plain = start g ranking := by
  refine start_induction (P := fun d ↦ d.plain = d) rfl fun d node _ h ↦ ?_
  change d.plain.enqueue g node _ = _
  rw [h]

/-- **A decomposition**, with and without assumption graphs. -/
theorem map_plain_decompose (hs : g.Shaped) (ranking : Ranking sp) (o : Options) :
    Refused g (g.decompose { o with assumptionGraphs := true } ranking) ∨
      (g.decompose { o with assumptionGraphs := true } ranking).map plain
        = g.decompose { o with assumptionGraphs := false } ranking := by
  have hstart : (start g ranking).Rowed g := rowed_start hs
  have hrun := map_plain_run hs ranking o (ranking.nodes.length + 1) hstart
  rwa [plain_start] at hrun

end JusticeViolation.Decomposition

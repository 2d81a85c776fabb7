import JusticeViolation.Proofs.Construction.Outcome

/-!
# The verdict that a game is realizable

If the system can answer every move out of an initial state, the verdict depends on the states that
the play can reach: a game is found to be realizable if and only if none of them lies in a rank. The
moves of both players count, so it is not enough that no initial state lies in a rank. Where that is
so and the play can get into a rank all the same, no rank has a start point. Such ranks are taken up
and left again without a node, and what is built is the initial node alone.
-/

namespace JusticeViolation

variable {sp : Space} {g : Game sp}

/-! ## Ranks without start points -/

namespace Item

variable {item : Item sp} (h : item.starts = []) (lower : StateSet sp)

include h

/-- Without start points no path is traced. -/
theorem tracing_of_starts_eq_nil :
    (item.split g lower).tracing = ⟨[], (item.attractor g lower).inner, none⟩ := by
  have hseeds : item.seeds g (item.maze g lower).cells = [] := by
    rw [seeds, h, List.map_nil, List.filter_nil]
  change (item.maze g lower).trace g _ (item.seeds g (item.maze g lower).cells) = _
  rw [hseeds]
  rfl

private theorem not_mem_unionPoints (points : Path sp → List (Point sp)) (i : Nat) :
    i ∉ unionPoints points (item.split g lower).tracing.paths := by
  rw [tracing_of_starts_eq_nil h, mem_unionPoints]
  exact fun ⟨_, hp, _⟩ ↦ absurd hp List.not_mem_nil

/-- **Without start points all parts are empty.** -/
theorem not_mem_parts_of_starts_eq_nil (hg : g.Shaped) {states : StateSet sp}
    (hs : states ∈ (item.split g lower).parts) (i : Nat) : i ∉ states := by
  intro hi
  rcases Split.mem_parts.mp hs with rfl | rfl | rfl
  · exact not_mem_unionPoints h lower Path.approach i (StateSet.mem_sdiff.mp hi).1
  · obtain ⟨j, hj⟩ := Game.exists_mem_of_mem_close hi
    exact not_mem_unionPoints h lower Path.cycle j hj
  · obtain ⟨j, hj⟩ := Game.exists_mem_of_mem_close hi
    rcases StateSet.mem_union.mp (StateSet.mem_inter.mp hj).1 with hstarted | himage
    · rw [h, List.map_nil] at hstarted
      obtain ⟨s, hs, -⟩ := StateSet.mem_unionAll.mp hstarted
      exact absurd hs List.not_mem_nil
    · obtain ⟨-, k, hk, -⟩ := (hg.mem_strip (Game.current_image _ _)).mp himage
      obtain ⟨-, v, hv, -⟩ := Game.mem_image.mp hk
      exact not_mem_unionPoints h lower Path.points v hv

end Item

namespace Decomposition

variable {o : Options} {ranking : Ranking sp} {d : Decomposition sp}

theorem emit_of_empty {states : StateSet sp} (h : ∀ i, i ∉ states) (rank : Nat)
    (inner : StateSet sp) (body : NodeBody sp) (s : Decomposition sp × List Nat) :
    emit rank inner states body s = s := by
  obtain ⟨d, emitted⟩ := s
  exact if_pos (StateSet.isEmpty_iff.mpr h)

/-- **A rank without start points** is taken up and left without a node. -/
theorem process_of_starts_eq_nil (hg : g.Shaped) {item : Item sp} (h : item.starts = []) :
    ∃ d', d.process g o ranking item = .ok d' ∧ d'.graph = d.graph ∧ d'.queue = d.queue := by
  have htracing := Item.tracing_of_starts_eq_nil (g := g) h (lower ranking item.node)
  have hempty : ∀ states ∈ (item.split g (lower ranking item.node)).parts, ∀ i, i ∉ states :=
    fun states hs ↦ Item.not_mem_parts_of_starts_eq_nil h _ hg hs
  have hv : (item.split g (lower ranking item.node)).tracing.violation = none := by rw [htracing]
  have hbody : cycleBody g o item.node.rank (item.split g (lower ranking item.node))
      = .ok (.cycle none) := by
    have hcycle := StateSet.isEmpty_iff.mpr (hempty _ (Split.cycle_mem_parts _))
    rw [cycleBody, hcycle, Bool.not_true, Bool.and_false, if_neg Bool.false_ne_true]
  have hextend : extend g ranking item (.cycle none) (takeUp g ranking item d)
      = (takeUp g ranking item d, []) := by
    unfold extend
    dsimp only
    rw [emit_of_empty (hempty _ (Split.approach_mem_parts _)),
      emit_of_empty (hempty _ (Split.cycle_mem_parts _)),
      emit_of_empty (hempty _ (Split.descent_mem_parts _))]
    rfl
  obtain ⟨hgraph, hqueue, -⟩ : (takeUp g ranking item d).graph = d.graph ∧
      (takeUp g ranking item d).queue = d.queue ∧ _ := foldl_report _ _
  rw [process_eq hv hbody, hextend]
  exact ⟨_, rfl, hgraph, hqueue⟩

/-- If no initial state lies in a rank, the ranks of the marker are queued without start points. -/
theorem starts_eq_nil_of_mem_start (hg : g.Shaped) (hr : g.ranking? = some ranking)
    (hout : ∀ i ∈ g.initial, ∀ r, i ∉ g.rank r) {item : Item sp}
    (hitem : item ∈ (start g ranking).queue) : item.starts = [] := by
  have hnone : ∀ node ∈ ranking.nodes, initialStarts g (g.item node) = [] := fun node hnode ↦ by
    rw [initialStarts, List.map_eq_nil_iff, List.eq_nil_iff_forall_not_mem]
    rintro ⟨row, column, part⟩ hpart
    obtain ⟨rfl, i, hi⟩ := Item.mem_parts.mp hpart
    obtain ⟨hinitial, hcell⟩ := StateSet.mem_inter.mp hi
    have hlevel := ((fits_item hg hr hnode).mem_cell.mp hcell).1
    exact hout i hinitial _ (Game.mem_level.mp hlevel).1
  have hsame : ∀ node ∈ ranking.nodes,
      (g.item node).addStarts (initialStarts g (g.item node)) Graph.initialId = g.item node :=
    fun node hnode ↦ by rw [hnone node hnode]; rfl
  have hbare : ∀ item ∈ (start g ranking).queue, ∃ node ∈ ranking.nodes, item = g.item node := by
    refine start_induction (P := fun d ↦ ∀ item ∈ d.queue, ∃ node ∈ ranking.nodes,
      item = g.item node) (fun _ hitem ↦ absurd hitem List.not_mem_nil) fun d node hnode hd ↦ ?_
    refine forall_changeItem ⟨node, hnode, hsame node hnode⟩ (fun item hitem _ ↦ ?_) hd
    obtain ⟨node', hnode', rfl⟩ := hd item hitem
    exact ⟨node', hnode', hsame node' hnode'⟩
  obtain ⟨node, -, rfl⟩ := hbare item hitem
  rfl

/-- A run over ranks without start points changes nothing. -/
theorem run_of_starts_eq_nil (hg : g.Shaped) (fuel : Nat)
    (h : ∀ item ∈ d.queue, item.starts = []) :
    ∃ d', d.run g o ranking fuel = .ok d' ∧ d'.graph = d.graph := by
  induction fuel generalizing d with
  | zero => exact ⟨d, rfl, rfl⟩
  | succ fuel ih =>
    rw [run]
    split
    · exact ⟨d, rfl, rfl⟩
    · rename_i item rest hqueue
      obtain ⟨d₁, hok, hgraph, hqueue₁⟩ : ∃ d₁,
          ({ d with queue := rest } : Decomposition sp).process g o ranking item = .ok d₁ ∧
            d₁.graph = d.graph ∧ d₁.queue = rest :=
        process_of_starts_eq_nil hg (h item (hqueue ▸ List.mem_cons_self))
      obtain ⟨d', hrun, hgraph'⟩ := ih (d := d₁) fun item' hitem' ↦ by
        rw [hqueue₁] at hitem'
        exact h item' (hqueue ▸ List.mem_cons_of_mem _ hitem')
      rw [hok]
      exact ⟨d', hrun, hgraph'.trans hgraph⟩

/-- **Where no initial state lies in a rank**, the initial node stays alone. -/
theorem decompose_of_initial_out (hg : g.Shaped) (hr : g.ranking? = some ranking)
    (hout : ∀ i ∈ g.initial, ∀ r, i ∉ g.rank r) :
    ∃ d, g.decompose o ranking = .ok d ∧
      d.graph = ⟨[⟨Graph.initialId, none, g.initial, ∅, [], .initial⟩], []⟩ := by
  have hgraph : (start g ranking).graph
      = ⟨[⟨Graph.initialId, none, g.initial, ∅, [], .initial⟩], []⟩ :=
    start_induction (P := fun d ↦ d.graph = ⟨[⟨Graph.initialId, none, g.initial, ∅, [], .initial⟩],
      []⟩) rfl fun _ _ _ hd ↦ hd
  obtain ⟨d, hd, hsame⟩ := run_of_starts_eq_nil (o := o) hg (ranking.nodes.length + 1)
    fun item hitem ↦ starts_eq_nil_of_mem_start hg hr hout hitem
  exact ⟨d, hd, hsame.trans hgraph⟩

end Decomposition

namespace Game

variable {o : Options}

/-- Finding facts and merging chains leave the initial node alone if it is alone. -/
private theorem finish_alone (s : StateSet sp) :
    ∃ facts, (g.finish o ⟨[⟨Graph.initialId, none, s, ∅, [], .initial⟩], []⟩).1
      = ⟨[⟨Graph.initialId, none, s, ∅, facts, .initial⟩], []⟩ := by
  have hmerge : ∀ (facts : List Fact) (refresh : Bool),
      (⟨[⟨Graph.initialId, none, s, ∅, facts, .initial⟩], []⟩ : Graph sp).mergeAttractors g refresh
        = ⟨[⟨Graph.initialId, none, s, ∅, facts, .initial⟩], []⟩ := fun facts refresh ↦ by
    cases refresh <;> rfl
  obtain ⟨facts, hfacts⟩ : ∃ facts,
      (if o.invariants then
        Graph.annotate g ⟨[⟨Graph.initialId, none, s, ∅, [], .initial⟩], []⟩
      else ⟨[⟨Graph.initialId, none, s, ∅, [], .initial⟩], []⟩)
        = ⟨[⟨Graph.initialId, none, s, ∅, facts, .initial⟩], []⟩ := by
    split
    · exact ⟨_, rfl⟩
    · exact ⟨_, rfl⟩
  refine ⟨facts, ?_⟩
  unfold finish
  dsimp only
  rw [hfacts]
  split
  · exact hmerge facts _
  · rfl

/-! ## The verdict -/

/-- The system has an answer to every move of the environment in an initial state. -/
def StartAnswered (g : Game sp) : Prop :=
  ∀ v ∈ g.initial, v ∈ g.envTrans → ∃ w ∈ g.sysTrans, g.SameChoice v w

theorem deadlockGraph?_eq_none_iff : g.deadlockGraph? = none ↔ g.StartAnswered := by
  rw [deadlockGraph?_eq_none_iff_forall]
  refine forall_congr' fun v ↦ ?_
  rw [StateSet.mem_inter, mem_deadlocking]
  constructor
  · intro h hi henv
    by_contra hno
    push Not at hno
    exact h ⟨⟨henv, hno⟩, hi⟩
  · rintro h ⟨⟨henv, hno⟩, hi⟩
    obtain ⟨w, hw, hvw⟩ := h hi henv
    exact hno w hw hvw

/-- **When a game is found to be realizable.** If the system can answer every move out of an
initial state, the verdict is reached if and only if no state of a rank can be reached, whatever is
asked for. No initial state lies in a rank then. The converse fails: if no initial state lies in a
rank but the play can get into one, then the initial node alone is built. -/
theorem verdict_of_startAnswered (hshape : g.shapeFault? = none) (ha : g.StartAnswered)
    (o : Options) :
    (g.build o = .error .realizable ↔
      ∀ i, g.Reachable g.initial .univ i → ∀ r, i ∉ g.rank r) ∧
    (g.build o = .error .realizable → ∀ i ∈ g.initial, ∀ r, i ∉ g.rank r) ∧
    ((∀ i ∈ g.initial, ∀ r, i ∉ g.rank r) → g.build o ≠ .error .realizable →
      ∃ facts, g.build o
        = .ok ⟨[⟨Graph.initialId, none, g.initial, ∅, facts, .initial⟩], []⟩) := by
  have hs := shaped_of_shapeFault?_eq_none hshape
  have hdead := deadlockGraph?_eq_none_iff.mpr ha
  have hverdict : g.build o = .error .realizable ↔ g.ranking? = none := by
    rw [build_eq hshape]
    cases hr : g.ranking? with
    | none =>
      rw [bareGraph_of_unrealizable hdead hr]
      exact iff_of_true rfl rfl
    | some ranking =>
      rw [bareGraph_of_ranking hdead hr]
      cases hd : g.decompose o ranking with
      | error e => exact iff_of_false (by simp [Except.map]) (by simp)
      | ok d => exact iff_of_false (by simp [Except.map]) (by simp)
  refine ⟨hverdict.trans Ranking.ranking?_eq_none_iff, fun hreal i hi ↦ ?_,
    fun hout hne ↦ ?_⟩
  · exact Ranking.ranking?_eq_none_iff.mp (hverdict.mp hreal) i
      (.start hi (StateSet.mem_univ.mpr (StateSet.lt_size hi)))
  · obtain ⟨ranking, hranking⟩ := Option.ne_none_iff_exists'.mp fun hr ↦ hne (hverdict.mpr hr)
    obtain ⟨d, hd, hgraph⟩ := Decomposition.decompose_of_initial_out (o := o) hs hranking hout
    obtain ⟨facts, hfinish⟩ := finish_alone (g := g) (o := o) g.initial
    refine ⟨facts, ?_⟩
    rw [build_eq hshape, bareGraph_of_ranking hdead hranking, hd, ← hfinish, ← hgraph]
    rfl

/-! ## A game that the system need not lose -/

/-- The system can keep its bit clear; once set it stays set, and no guarantee is met then. -/
def yielding : Game bits where
  initial := .literal ⟨2⟩ 0
  envTrans := .univ
  sysTrans := .literal ⟨2⟩ 0 ∪ .literal ⟨3⟩ 1
  ranks := [.literal ⟨2⟩ 1]
  progress := [[[.literal ⟨2⟩ 1], [.literal ⟨2⟩ 1]]]
  assumptions := [⟨"always", "true"⟩, ⟨"always too", "true"⟩]
  guarantees := [⟨"clear", "!s"⟩]
  marker := ⟨4⟩

theorem twoPlayer_yielding : yielding.TwoPlayer where
  initial := .literal (by decide) (by decide) 0
  ranks := fun s hs ↦ List.mem_singleton.mp hs ▸ .literal (by decide) (by decide) 1
  layers := fun matrix hm row hrow s hs ↦ by
    rw [List.mem_singleton.mp hm, List.mem_pair, or_self] at hrow
    rw [hrow, List.mem_singleton] at hs
    exact hs ▸ .literal (by decide) (by decide) 1
  aux := by decide
  envTrans := .univ _
  sysTrans := .union (.literal (by decide) (Or.inl (by decide)) 0)
    (.literal (by decide) (Or.inr (Or.inr (by decide))) 1)

private theorem mem_rank_yielding {r i : Nat} (hi : i ∈ yielding.rank r) :
    r = 0 ∧ i ∈ (.literal ⟨2⟩ 1 : StateSet bits) := by
  have hr : r < 1 := lt_numRanks_of_mem_rank hi
  obtain rfl : r = 0 := Nat.lt_one_iff.mp hr
  exact ⟨rfl, hi⟩

private theorem mem_layer_yielding {r row k i : Nat} (hi : i ∈ yielding.layer r row k) :
    r = 0 ∧ k = 0 ∧ i ∈ (.literal ⟨2⟩ 1 : StateSet bits) := by
  match r, row, k with
  | 0, 0, 0 => exact ⟨rfl, rfl, hi⟩
  | 0, 1, 0 => exact ⟨rfl, rfl, hi⟩
  | 0, 0, _ + 1 => exact absurd hi (StateSet.not_mem_empty i)
  | 0, 1, _ + 1 => exact absurd hi (StateSet.not_mem_empty i)
  | 0, _ + 2, _ => exact absurd hi (StateSet.not_mem_empty i)
  | _ + 1, _, _ => exact absurd hi (StateSet.not_mem_empty i)

theorem solved_yielding : yielding.Solved where
  layer_subset := fun r row k i hi ↦ by
    obtain ⟨rfl, -, hi⟩ := mem_layer_yielding hi
    exact hi
  cover := fun r row i _ hrow hi _ ↦ by
    obtain ⟨rfl, hi⟩ := mem_rank_yielding hi
    refine ⟨0, ?_⟩
    rcases Nat.lt_succ_iff_lt_or_eq.mp hrow with hrow | rfl
    · obtain rfl : row = 0 := Nat.lt_one_iff.mp hrow
      exact hi
    · exact hi
  force_layers := fun r row k i _ _ _ _ hfirst ↦
    absurd (mem_layer_yielding hfirst.1).2.1 (Nat.succ_ne_zero k)
  force_rank := fun r row i _ _ hi _ _ ↦ by
    obtain ⟨rfl, hi⟩ := mem_rank_yielding hi
    -- whatever the environment does, the bit of the system stays set
    refine ⟨i, StateSet.mem_univ.mpr (StateSet.lt_size hi), rfl, fun w hw hvw ↦ ?_⟩
    have hset : bits.digit w ⟨2⟩ = 1 := by
      rw [← Space.now_eq_iff.mp hvw.now_eq ⟨2⟩ rfl]
      exact ((StateSet.mem_literal (by decide)).mp hi).2
    refine (StateSet.mem_literal (by decide)).mpr ⟨bits.next_lt w, ?_⟩
    rw [Space.digit_next_of_current rfl]
    rcases StateSet.mem_union.mp hw with hclear | hstay
    · rw [StateSet.mem_literal (by decide), hset] at hclear
      exact absurd hclear.2 Nat.one_ne_zero
    · exact ((StateSet.mem_literal (by decide)).mp hstay).2

theorem startAnswered_yielding : yielding.StartAnswered := fun v hv _ ↦
  ⟨v, StateSet.mem_union.mpr (Or.inl hv), .refl _ v⟩

private theorem initial_out_yielding : ∀ i ∈ yielding.initial, ∀ r, i ∉ yielding.rank r := by
  intro i hi r hr
  have hclear := ((StateSet.mem_literal (by decide)).mp hi).2
  have hset := ((StateSet.mem_literal (by decide)).mp (mem_rank_yielding hr).2).2
  rw [hclear] at hset
  exact absurd hset Nat.zero_ne_one

/-- **That no initial state lies in a rank does not decide the verdict.** The game is solved, and
the system can stay out of its only rank for ever; but the play can enter it, and so there is a
graph. -/
theorem not_forall_realizable_iff : ¬∀ (g : Game bits) (o : Options), g.shapeFault? = none →
    g.TwoPlayer → g.Solved → g.StartAnswered →
      (g.build o = .error .realizable ↔ ∀ i ∈ g.initial, ∀ r, i ∉ g.rank r) := by
  intro h
  obtain ⟨graph, hb, -⟩ := exists_of_any_build (g := yielding) (o := {}) (p := fun _ ↦ true)
    (by decide +kernel)
  rw [(h yielding {} (by decide +kernel) twoPlayer_yielding solved_yielding
    startAnswered_yielding).mpr initial_out_yielding] at hb
  cases hb

/-- The play can enter the rank, so the initial node alone is built. -/
theorem verdict_yielding : ∃ facts, yielding.build {}
    = .ok ⟨[⟨Graph.initialId, none, yielding.initial, ∅, facts, .initial⟩], []⟩ := by
  obtain ⟨hiff, -, halone⟩ := verdict_of_startAnswered (by decide +kernel) startAnswered_yielding {}
  refine halone initial_out_yielding fun hreal ↦ ?_
  have hround : ∃ v < 64, v ∈ yielding.initial ∧ v ∈ yielding.trans ∧
      bits.next v ∈ yielding.rank 0 := by decide +kernel
  obtain ⟨v, hv, hi, ht, hnext⟩ := hround
  refine hiff.mp hreal (bits.next v) (.round (.start hi (StateSet.mem_univ.mpr hv)) ht
    (StateSet.mem_univ.mpr (bits.next_lt v)) (bits.now_next v).symm) 0 hnext

end Game

end JusticeViolation

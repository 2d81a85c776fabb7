import JusticeViolation.Proofs.Construction.Acyclicity
import JusticeViolation.Proofs.Decomposition.Emission
import JusticeViolation.Proofs.Game.LeastChoice
import JusticeViolation.Proofs.Game.Solution

/-!
# Deadlocks at the start

If the environment has a move in an initial state that the system cannot answer, no rank is looked
at: the graph has a node for such states beside the initial one, and that is all. The node has no
rank, and commits each of its states to a single move without answer. Otherwise every node but the
initial one is a part of a rank, and has that rank.

The set of deadlocks is computed by forgetting the next values of the system, so an answer counts as
missing only if it is missing for every value of all other copies. Where the answers depend on the
state and on the next values of the players alone, this comes to the same as asking for an answer to
the move.
-/

namespace JusticeViolation

variable {sp : Space} {g : Game sp} {o : Options}

namespace Game

/-! ## Moves without an answer -/

/-- A move of the environment that the system cannot answer. -/
def Unanswered (g : Game sp) (v : Nat) : Prop :=
  v ∈ g.envTrans ∧ ∀ w ∈ g.sysTrans, sp.now w = sp.now v → ¬g.SameMove v w

/-- The environment has a move in the state `i` that the system cannot answer. -/
def CanStrand (g : Game sp) (i : Nat) : Prop := ∃ v, g.Unanswered v ∧ sp.now v = sp.now i

/-- The answers of the system depend on the state and on the next values of the players. -/
def AnswersMoves (g : Game sp) : Prop :=
  g.sysTrans.DependsOn fun x ↦ x.isPrimed = false ∨ x ∈ g.envNextIds ∨ x ∈ g.sysNextIds

theorem mem_deadlocking_iff_unanswered (hsys : g.AnswersMoves) {v : Nat} :
    v ∈ g.deadlocking ↔ g.Unanswered v := by
  rw [mem_deadlocking]
  refine and_congr_right fun _ ↦ ⟨fun h w hw hnow hmove ↦ ?_, fun h w hw hsame ↦ ?_⟩
  · -- the same answer, given to the choice `v` itself
    obtain ⟨u, hlt, hsysNext, hother⟩ := sp.exists_mixed w v (· ∈ g.sysNextIds)
    refine h u ((hsys u w hlt (StateSet.lt_size hw) fun x hx ↦ ?_).mpr hw) fun x hx ↦
      (hother x hx).symm
    by_cases hxs : x ∈ g.sysNextIds
    · exact hsysNext x hxs
    · rw [hother x hxs]
      rcases hx with hcur | henv | hx
      · exact (Space.now_eq_iff.mp hnow x hcur).symm
      · exact hmove x henv
      · exact absurd hx hxs
  · exact h w hw hsame.now_eq.symm hsame.sameMove

/-- The tags of the states do not decide whether the system is left stuck. -/
theorem Shaped.deadlocking_bare (hs : g.Shaped) : g.deadlocking.DependsOn (· ≠ g.marker) :=
  hs.envTrans_bare.sdiff <|
    (hs.sysTrans_bare.forget fun _ hx ↦ (sysNextIds_mem hx).1).mono fun _ hx ↦ hx.1

/-- Where tags do not matter, states that differ in their tags keep the same move. -/
theorem Shaped.digits_eq_of_bare_eq (hs : g.Shaped) {choices : StateSet sp}
    (hc : choices.DependsOn (· ≠ g.marker)) {v w : Nat} (hv : v ∈ g.determinize choices)
    (hw : w ∈ g.determinize choices) (hvw : sp.bare g.marker v = sp.bare g.marker w) :
    sp.digits v g.envNextIds = sp.digits w g.envNextIds := by
  have key : ∀ {v w}, v ∈ g.determinize choices → w ∈ g.determinize choices →
      sp.bare g.marker v = sp.bare g.marker w →
      sp.digits v g.envNextIds ≤ sp.digits w g.envNextIds := by
    intro v w hv hw hvw
    -- the choice `w`, under the tag of `v`
    have htag : sp.digit v g.marker < sp.domainSize g.marker := sp.digit_lt v g.marker
    have hmem : sp.put w g.marker (sp.digit v g.marker) ∈ choices :=
      (hc _ w (Space.put_lt htag) (StateSet.lt_size hw) fun x hx ↦
        Space.digit_put_of_ne htag hx).mpr (determinize_subset hw)
    have hnow : sp.now (sp.put w g.marker (sp.digit v g.marker)) = sp.now v :=
      Space.now_eq_iff.mpr fun x hx ↦ by
        by_cases hxm : x = g.marker
        · rw [hxm, Space.digit_put_self htag]
        · rw [Space.digit_put_of_ne htag hxm]
          exact (Space.bare_eq_iff.mp hvw x hx hxm).symm
    have hdigits : sp.digits (sp.put w g.marker (sp.digit v g.marker)) g.envNextIds
        = sp.digits w g.envNextIds := List.map_inj_left.mpr fun x hx ↦
      Space.digit_put_of_ne htag fun e ↦ hs.marker_not_mem .env (by decide) true (e ▸ hx)
    exact hdigits ▸ (mem_determinize_iff_isLeastChoice.mp hv).2 _ hmem hnow
  exact le_antisymm (key hv hw hvw) (key hw hv hvw.symm)

/-! ## The graph of a deadlock -/

/-- A graph that shows nothing but a deadlock at the start: the initial node, a node for the initial
states in which the environment can leave the system stuck, and an edge between them. -/
structure ShowsDeadlock (g : Game sp) (graph : Graph sp) (root stuck : Node sp) (edge : Edge) :
    Prop where
  nodes_eq : graph.nodes = [root, stuck]
  edges_eq : graph.edges = [edge]
  edge_ends : edge.source = root.id ∧ edge.target = stuck.id
  root_id : root.id = Graph.initialId
  root_kind : root.kind = .initial
  root_rank : root.rank = none
  root_states : root.states = g.initial
  root_transitions : root.transitions = ∅
  stuck_id : stuck.id = 1
  stuck_kind : stuck.kind = .attractorFromCycle
  stuck_rank : stuck.rank = none
  mem_states : ∀ i, i ∈ stuck.states ↔ i ∈ g.initial ∧ g.CanStrand i
  /-- Every state has a move, … -/
  exists_move : ∀ i ∈ stuck.states, ∃ v ∈ stuck.transitions, sp.now v = sp.now i
  /-- … every move is one of such a state, without an answer, … -/
  unanswered : ∀ v ∈ stuck.transitions, v ∈ stuck.states ∧ g.Unanswered v
  /-- … and a state has no two moves, whatever its tag. -/
  one_move : ∀ v ∈ stuck.transitions, ∀ w ∈ stuck.transitions,
    sp.bare g.marker v = sp.bare g.marker w →
      sp.digits v g.envNextIds = sp.digits w g.envNextIds

/-- The initial node and a node of stuck states, with their facts. -/
private def deadlockPair (initial states choices : StateSet sp) (fs fs' fs'' : List Fact) :
    Graph sp :=
  ⟨[⟨Graph.initialId, none, initial, ∅, fs, .initial⟩,
    ⟨1, none, states, choices, fs', .attractorFromCycle⟩], [⟨Graph.initialId, 1, fs''⟩]⟩

private theorem deadlockGraph?_eq_deadlockPair {v : Nat} (hv : v ∈ g.deadlocking ∩ g.initial) :
    g.deadlockGraph? = some (deadlockPair g.initial (g.domain (g.deadlocking ∩ g.initial))
      (g.determinize (g.deadlocking ∩ g.initial)) [] [] []) := by
  unfold deadlockGraph?
  dsimp only
  rw [if_neg fun hempty ↦ StateSet.isEmpty_iff.mp hempty v (mem_domain_of_mem hv)]
  rfl

/-- Finding facts and merging chains leave the two nodes apart: only one of them is an attractor. -/
private theorem finish_deadlockPair (o : Options) (initial states choices : StateSet sp) :
    ∃ fs fs' fs'', (g.finish o (deadlockPair initial states choices [] [] [])).1
      = deadlockPair initial states choices fs fs' fs'' := by
  have hmerge : ∀ (fs fs' fs'' : List Fact) (refresh : Bool),
      (deadlockPair initial states choices fs fs' fs'').mergeAttractors g refresh
        = deadlockPair initial states choices fs fs' fs'' := fun fs fs' fs'' refresh ↦ by
    cases refresh <;> rfl
  obtain ⟨fs, fs', fs'', hfacts⟩ : ∃ fs fs' fs'',
      (if o.invariants then (deadlockPair initial states choices [] [] []).annotate g
        else deadlockPair initial states choices [] [] [])
        = deadlockPair initial states choices fs fs' fs'' := by
    split
    · exact ⟨_, _, _, rfl⟩
    · exact ⟨_, _, _, rfl⟩
  refine ⟨fs, fs', fs'', ?_⟩
  unfold finish
  dsimp only
  rw [hfacts]
  split
  · exact hmerge fs fs' fs'' _
  · rfl

/-- Whatever facts are found, the two nodes show the deadlock. -/
private theorem showsDeadlock_deadlockPair (hs : g.Shaped) (hinitial : g.initial.Current)
    (hsys : g.AnswersMoves) (fs fs' fs'' : List Fact) :
    g.ShowsDeadlock (deadlockPair g.initial (g.domain (g.deadlocking ∩ g.initial))
        (g.determinize (g.deadlocking ∩ g.initial)) fs fs' fs'')
      ⟨Graph.initialId, none, g.initial, ∅, fs, .initial⟩
      ⟨1, none, g.domain (g.deadlocking ∩ g.initial), g.determinize (g.deadlocking ∩ g.initial),
        fs', .attractorFromCycle⟩ ⟨Graph.initialId, 1, fs''⟩ where
  nodes_eq := rfl
  edges_eq := rfl
  edge_ends := ⟨rfl, rfl⟩
  root_id := rfl
  root_kind := rfl
  root_rank := rfl
  root_states := rfl
  root_transitions := rfl
  stuck_id := rfl
  stuck_kind := rfl
  stuck_rank := rfl
  mem_states := fun i ↦ by
    rw [mem_domain]
    constructor
    · rintro ⟨hi, v, hv, hvi⟩
      obtain ⟨hdead, hv⟩ := StateSet.mem_inter.mp hv
      exact ⟨(hinitial.mem_iff_of_now_eq (StateSet.lt_size hv) hi hvi).mp hv, v,
        (mem_deadlocking_iff_unanswered hsys).mp hdead, hvi⟩
    · rintro ⟨hi, v, hv, hvi⟩
      have hlt := StateSet.lt_size hv.1
      exact ⟨StateSet.lt_size hi, v, StateSet.mem_inter.mpr
        ⟨(mem_deadlocking_iff_unanswered hsys).mpr hv,
          (hinitial.mem_iff_of_now_eq hlt (StateSet.lt_size hi) hvi).mpr hi⟩, hvi⟩
  exists_move := fun i hi ↦ by
    obtain ⟨-, v, hv, hvi⟩ := (mem_domain (g := g)).mp hi
    obtain ⟨w, hw, hwv⟩ := exists_mem_determinize hv
    exact ⟨w, hw, hwv.trans hvi⟩
  unanswered := fun v hv ↦ by
    have hchoice := determinize_subset hv
    exact ⟨mem_domain_of_mem (g := g) hchoice,
      (mem_deadlocking_iff_unanswered hsys).mp (StateSet.mem_inter.mp hchoice).1⟩
  one_move := fun v hv w hw hvw ↦
    hs.digits_eq_of_bare_eq (hs.deadlocking_bare.inter hs.initial_bare) hv hw hvw

/-! ## Nodes without a rank -/

/-- **Where there is no deadlock at the start**, every node but the initial one has a rank. -/
theorem rank_ne_none_of_bareGraph (hdead : g.deadlockGraph? = none) {bare : Graph sp}
    (h : (g.bareGraph o).result = .ok bare) {n : Node sp} (hn : n ∈ bare.nodes)
    (hkind : n.kind ≠ .initial) : n.rank ≠ none := by
  rcases cases_of_bareGraph h with hsome | ⟨ranking, d, -, hdec, rfl⟩
  · rw [hdead] at hsome
    cases hsome
  · rcases Decomposition.of_mem_decompose hdec hn with rfl | hemitted
    · exact absurd rfl hkind
    · exact hemitted.rank_ne_none

/-- **A deadlock at the start is all that is built.** If the environment has a move in some initial
state that the system cannot answer, then the graph consists of the initial node and of a node
without rank for exactly these states, whatever is asked for; each of them is committed to one move,
and that move has no answer. If there is no such state, then no node beside the initial one is
without a rank. -/
theorem deadlock_short_circuit (hshape : g.shapeFault? = none) (hinitial : g.initial.Current)
    (hsys : g.AnswersMoves) (o : Options) :
    ((∃ i ∈ g.initial, g.CanStrand i) → ∃ graph root stuck edge,
      g.build o = .ok graph ∧ g.ShowsDeadlock graph root stuck edge) ∧
    ((¬∃ i ∈ g.initial, g.CanStrand i) → ∀ graph, g.build o = .ok graph →
      ∀ n ∈ graph.nodes, n.id ≠ Graph.initialId → n.rank ≠ none) := by
  have hs := shaped_of_shapeFault?_eq_none hshape
  constructor
  · rintro ⟨i, hi, v, hv, hvi⟩
    have hmem : v ∈ g.deadlocking ∩ g.initial := StateSet.mem_inter.mpr
      ⟨(mem_deadlocking_iff_unanswered hsys).mpr hv,
        (hinitial.mem_iff_of_now_eq (StateSet.lt_size hv.1) (StateSet.lt_size hi) hvi).mpr hi⟩
    obtain ⟨fs, fs', fs'', hfinish⟩ := finish_deadlockPair (g := g) o g.initial
      (g.domain (g.deadlocking ∩ g.initial)) (g.determinize (g.deadlocking ∩ g.initial))
    refine ⟨_, _, _, _, ?_, showsDeadlock_deadlockPair hs hinitial hsys fs fs' fs''⟩
    rw [build_eq hshape, bareGraph_of_deadlock (deadlockGraph?_eq_deadlockPair hmem), ← hfinish]
    rfl
  · intro hnone graph hb n hn h0
    have hdead : g.deadlockGraph? = none := by
      refine deadlockGraph?_eq_none_iff_forall.mpr fun v hv ↦ hnone ?_
      obtain ⟨hdead, hv⟩ := StateSet.mem_inter.mp hv
      exact ⟨v, hv, v, (mem_deadlocking_iff_unanswered hsys).mp hdead, rfl⟩
    obtain ⟨bare, hbare, rfl⟩ := exists_result_of_build hb
    have hwf := (numbered_of_bareGraph hbare).toWellFormed
    obtain ⟨f, hf⟩ := Graph.folds_finish (g := g) hwf o
    obtain ⟨m, hm, hid, hrank, -⟩ := hf.exists_member n hn
    have hm0 : m.id ≠ Graph.initialId := hf.id_ne_initialId hm hid h0
    rw [← hrank]
    exact rank_ne_none_of_bareGraph hdead hbare hm fun hkind ↦ hm0 ((hwf.initial_iff m hm).mp hkind)

/-! ## A game that halts -/

/-- While its bit is clear, the system has no answer when the environment sets its own. -/
def halting : Game bits where
  initial := .univ
  envTrans := .univ
  sysTrans := .literal ⟨1⟩ 0 ∪ .literal ⟨2⟩ 1
  ranks := [.univ]
  progress := [[[.univ], [.univ]]]
  assumptions := [⟨"always", "true"⟩, ⟨"always too", "true"⟩]
  guarantees := [⟨"never", "false"⟩]
  marker := ⟨4⟩

theorem answersMoves_halting : halting.AnswersMoves :=
  .union (.literal (by decide) (Or.inr (Or.inl (by decide))) 0)
    (.literal (by decide) (Or.inl (by decide)) 1)

/-- The move of the environment that sets its bit while all others are clear. -/
private theorem unanswered_halting : halting.Unanswered 2 := by
  refine ⟨StateSet.mem_univ.mpr (by decide), fun w hw hnow hmove ↦ ?_⟩
  rcases StateSet.mem_union.mp hw with hclear | hset
  · have hdigit := hmove ⟨1⟩ (by decide)
    rw [((StateSet.mem_literal (by decide)).mp hclear).2] at hdigit
    exact absurd hdigit (by decide)
  · have hdigit := Space.now_eq_iff.mp hnow ⟨2⟩ rfl
    rw [((StateSet.mem_literal (by decide)).mp hset).2] at hdigit
    exact absurd hdigit (by decide)

/-- The halting game is stuck at once; the game of turns is not, and the nodes of its graph have
ranks. -/
theorem deadlock_halting : (∃ graph root stuck edge, halting.build {} = .ok graph ∧
      halting.ShowsDeadlock graph root stuck edge) ∧
    ∃ graph, turns.build {} = .ok graph ∧ ∃ n ∈ graph.nodes, n.rank ≠ none := by
  constructor
  · exact (deadlock_short_circuit (g := halting) (by decide +kernel) (.univ _)
      answersMoves_halting {}).1
      ⟨2, StateSet.mem_univ.mpr (by decide), 2, unanswered_halting, rfl⟩
  · obtain ⟨graph, hb, hany⟩ := exists_of_any_build (g := turns) (o := {})
      (p := fun graph ↦ graph.nodes.any fun n ↦ n.id != Graph.initialId) (by decide +kernel)
    obtain ⟨n, hn, h0⟩ := List.any_eq_true.mp hany
    rw [bne_iff_ne] at h0
    refine ⟨graph, hb, n, hn, (deadlock_short_circuit (g := turns) (by decide +kernel) (.univ _)
      (.univ _) {}).2 ?_ graph hb n hn h0⟩
    rintro ⟨_, _, v, ⟨hv, hno⟩, _⟩
    exact hno v hv rfl fun _ _ ↦ rfl

end Game

end JusticeViolation

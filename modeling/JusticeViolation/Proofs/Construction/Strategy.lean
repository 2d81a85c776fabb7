import JusticeViolation.Proofs.Construction.Outcome

/-!
# The graph as a strategy

The transitions of the nodes make up a positional strategy of the environment: every state of a
node has a choice, every choice is a legal move, and the move depends on the state alone. Choices of
one rank are committed together, and those of different ranks start in different states, so the
move depends on the state in the whole graph and not only in a node. That is what lets nodes be
merged.
-/

namespace JusticeViolation

variable {sp : Space} {g : Game sp} {graph graph' : Graph sp}

/-- **A positional strategy**: what the nodes but the initial one are committed to. -/
structure Graph.Positional (g : Game sp) (graph : Graph sp) : Prop where
  domain_eq : ∀ n ∈ graph.nodes, n.id ≠ initialId → g.domain n.transitions = n.states
  mem_envTrans : ∀ n ∈ graph.nodes, n.id ≠ initialId → ∀ v ∈ n.transitions, v ∈ g.envTrans
  sameMove : ∀ n ∈ graph.nodes, n.id ≠ initialId → ∀ m ∈ graph.nodes, m.id ≠ initialId →
    ∀ v ∈ n.transitions, ∀ w ∈ m.transitions, sp.now v = sp.now w → g.SameMove v w

namespace Graph

/-- Folding keeps a strategy. -/
theorem Positional.folds {f : Nat → Nat} (h : graph.Positional g) (hf : Folds f graph graph') :
    graph'.Positional g := by
  refine ⟨fun n' hn' h0 ↦ StateSet.ext_mem fun i ↦ ?_, fun n' hn' h0 v hv ↦ ?_,
    fun n' hn' h0 m' hm' h0' v hv w hw hvw ↦ ?_⟩
  · rw [Game.mem_domain, hf.mem_states n' hn']
    constructor
    · rintro ⟨hlt, v, hv, hvi⟩
      obtain ⟨n, hn, hid, hvn⟩ := (hf.mem_transitions n' hn' v).mp hv
      refine ⟨n, hn, hid, ?_⟩
      rw [← h.domain_eq n hn (hf.id_ne_initialId hn hid h0)]
      exact Game.mem_domain.mpr ⟨hlt, v, hvn, hvi⟩
    · rintro ⟨n, hn, hid, hi⟩
      rw [← h.domain_eq n hn (hf.id_ne_initialId hn hid h0)] at hi
      obtain ⟨hlt, v, hv, hvi⟩ := Game.mem_domain.mp hi
      exact ⟨hlt, v, (hf.mem_transitions n' hn' v).mpr ⟨n, hn, hid, hv⟩, hvi⟩
  · obtain ⟨n, hn, hid, hvn⟩ := (hf.mem_transitions n' hn' v).mp hv
    exact h.mem_envTrans n hn (hf.id_ne_initialId hn hid h0) v hvn
  · obtain ⟨n, hn, hid, hvn⟩ := (hf.mem_transitions n' hn' v).mp hv
    obtain ⟨m, hm, hid', hwm⟩ := (hf.mem_transitions m' hm' w).mp hw
    exact h.sameMove n hn (hf.id_ne_initialId hn hid h0) m hm (hf.id_ne_initialId hm hid' h0')
      v hvn w hwm hvw

end Graph

namespace Game

theorem Deadlock.positional (h : g.Deadlock graph) : graph.Positional g where
  domain_eq := fun n hn h0 ↦ by
    obtain ⟨hstates, htrans, -⟩ := h.stuck n hn h0
    rw [htrans, hstates, domain_determinize]
  mem_envTrans := fun n hn h0 v hv ↦ by
    rw [(h.stuck n hn h0).2.1] at hv
    exact (mem_deadlocking.mp (StateSet.mem_inter.mp (determinize_subset hv)).1).1
  sameMove := fun n hn h0 m hm h0' v hv w hw hvw ↦ by
    rw [(h.stuck n hn h0).2.1] at hv
    rw [(h.stuck m hm h0').2.1] at hw
    exact functional_determinize _ v hv w hw hvw

end Game

namespace Decomposition

variable {ranking : Ranking sp}

theorem Finished.positional (hs : g.Shaped) (ho : g.OfStates) (h : Finished g ranking graph) :
    graph.Positional g := by
  obtain ⟨items, horigin⟩ := h.origin
  refine ⟨fun n hn h0 ↦ ?_, fun n hn h0 v hv ↦ ?_, fun n hn h0 m hm h0' v hv w hw hvw ↦ ?_⟩
  · obtain ⟨r, -, hfrom⟩ := horigin n hn h0
    exact hfrom.domain_eq hs ho
  · obtain ⟨r, -, hfrom⟩ := horigin n hn h0
    exact (hfrom.sound hs ho).mem_envTrans v (hfrom.mem_inner hv)
  · obtain ⟨r, hrank, hfrom⟩ := horigin n hn h0
    obtain ⟨q, hrank', hfrom'⟩ := horigin m hm h0'
    -- one state has one rank, hence one item
    have hvr := hfrom.mem_level hs ho (hfrom.mem_states hv)
    have hwq := hfrom'.mem_level hs ho (hfrom'.mem_states hw)
    rw [hrank] at hvr
    rw [hrank', ← (ho.untagged_level q).current.mem_iff_of_now_eq (StateSet.lt_size hv)
      (StateSet.lt_size hw) hvw] at hwq
    obtain rfl : r = q := hs.level_disjoint hvr hwq
    exact (hfrom.sound hs ho).functional v (hfrom.mem_inner hv) w (hfrom'.mem_inner hw) hvw

end Decomposition

namespace Game

variable {o : Options}

theorem positional_of_build (ho : g.OfStates) (hb : g.build o = .ok graph) :
    graph.Positional g := by
  have hs := shaped_of_shapeFault?_eq_none (shapeFault?_of_build hb)
  obtain ⟨bare, f, hf, hbare⟩ := exists_folds_of_build ho hb
  rcases hbare with hdead | ⟨ranking, -, hfinished⟩
  · exact hdead.positional.folds hf
  · exact (hfinished.positional hs ho).folds hf

/-- **The graph is a positional strategy of the environment.** Every state of a node has a choice,
all choices are legal moves, and those of one state are one move. -/
theorem strategy_of_build (ho : g.OfStates) (hb : g.build o = .ok graph) {n : Node sp}
    (hn : n ∈ graph.nodes) (h0 : n.id ≠ Graph.initialId) :
    g.domain n.transitions = n.states ∧ (∀ v ∈ n.transitions, v ∈ g.envTrans) ∧
      ∀ v ∈ n.transitions, ∀ w ∈ n.transitions, sp.now v = sp.now w →
        ∀ x ∈ g.envNextIds, sp.digit v x = sp.digit w x := by
  have hp := positional_of_build ho hb
  exact ⟨hp.domain_eq n hn h0, hp.mem_envTrans n hn h0, hp.sameMove n hn h0 n hn h0⟩

/-- The game of turns has a node that is such a strategy. -/
theorem strategy_turns : ∃ graph, turns.build {} = .ok graph ∧ ∃ n ∈ graph.nodes,
    n.id ≠ Graph.initialId ∧ turns.domain n.transitions = n.states ∧
      (∀ v ∈ n.transitions, v ∈ turns.envTrans) ∧
      ∀ v ∈ n.transitions, ∀ w ∈ n.transitions, bits.now v = bits.now w →
        ∀ x ∈ turns.envNextIds, bits.digit v x = bits.digit w x := by
  obtain ⟨graph, hb, hany⟩ := exists_of_any_build (g := turns) (o := {})
    (p := fun graph ↦ graph.nodes.any fun n ↦ n.id != Graph.initialId) (by decide +kernel)
  obtain ⟨n, hn, h0⟩ := List.any_eq_true.mp hany
  rw [bne_iff_ne] at h0
  exact ⟨graph, hb, n, hn, h0, strategy_of_build twoPlayer_turns.toOfStates hb hn h0⟩

end Game

end JusticeViolation

import JusticeViolation.Proofs.Construction.Outcome
import JusticeViolation.Proofs.Path.Round

/-!
# Cycles satisfy every assumption

A step that stays in a cycle goes to an earlier column of its row or, from the first column, to the
next row. The column cannot fall for ever, so a play that stays in the cycle comes to the first
column of its row, passes to the next row, and so visits the first column of every row again and
again: the environment keeps all its assumptions.
-/

namespace JusticeViolation

variable {sp : Space} {g : Game sp} {graph graph' : Graph sp}

/-! ## Steps -/

/-- Steps that stay in a cycle make progress. -/
structure Graph.Cycling (g : Game sp) (graph : Graph sp) : Prop where
  current : ∀ n ∈ graph.nodes, n.kind = .cycle → n.states.Current
  mem_states : ∀ n ∈ graph.nodes, n.kind = .cycle → ∀ v ∈ n.transitions, v ∈ n.states
  progresses : ∀ n ∈ graph.nodes, n.kind = .cycle → ∃ r, n.rank = some r ∧
    ∀ v ∈ n.transitions, v ∈ g.sysTrans → sp.next v ∈ g.strip n.states →
      sp.next v ∈ n.states ∧ g.Progresses r v

/-- Cycles are not folded. -/
theorem Graph.Cycling.folds {f : Nat → Nat} (h : graph.Cycling g) (hf : Folds f graph graph') :
    graph'.Cycling g := by
  refine ⟨fun n' hn' hkind ↦ ?_, fun n' hn' hkind ↦ ?_, fun n' hn' hkind ↦ ?_⟩
  · obtain ⟨n, hn, hkind, -, hstates, -⟩ := hf.cycle n' hn' hkind
    rw [← hstates]
    exact h.current n hn hkind
  · obtain ⟨n, hn, hkind, -, hstates, htrans, -⟩ := hf.cycle n' hn' hkind
    rw [← hstates, ← htrans]
    exact h.mem_states n hn hkind
  · obtain ⟨n, hn, hkind, hrank, hstates, htrans, -⟩ := hf.cycle n' hn' hkind
    rw [← hrank, ← hstates, ← htrans]
    exact h.progresses n hn hkind

theorem Game.Deadlock.cycling (h : g.Deadlock graph) : graph.Cycling g := by
  have hno : ∀ n ∈ graph.nodes, n.kind ≠ .cycle := fun n hn hkind ↦ by
    have hstuck := h.kind_eq hn (hkind ▸ fun h0 ↦ by cases h0)
    rw [hkind] at hstuck
    cases hstuck
  exact ⟨fun n hn hkind ↦ absurd hkind (hno n hn), fun n hn hkind ↦ absurd hkind (hno n hn),
    fun n hn hkind ↦ absurd hkind (hno n hn)⟩

namespace Decomposition

variable {ranking : Ranking sp}

theorem Finished.cycling (hs : g.Shaped) (ho : g.OfStates) (h : Finished g ranking graph) :
    graph.Cycling g := by
  have hfrom : ∀ n ∈ graph.nodes, n.kind = .cycle → ∃ item : Item sp, n.From g ranking item :=
    fun n hn hkind ↦ h.exists_from hn (hkind ▸ fun h0 ↦ by cases h0)
  refine ⟨fun n hn _ ↦ h.current hs ho hn, fun n hn hkind v hv ↦ ?_, fun n hn hkind ↦ ?_⟩
  · obtain ⟨item, hfrom⟩ := hfrom n hn hkind
    exact hfrom.mem_states hv
  · obtain ⟨item, hfrom⟩ := hfrom n hn hkind
    refine ⟨item.node.rank, hfrom.rank_eq, fun v hv hsys hstay ↦ ?_⟩
    have hcycle := hfrom.mem_states hv
    rw [hfrom.cycle_eq hkind] at hstay hcycle ⊢
    exact Item.Ready.cycle_progress hs ho hfrom.ready hfrom.explored hcycle (hfrom.mem_inner hv)
      hsys hstay

end Decomposition

/-! ## Plays -/

/-- The steps of an infinite play that stays in a node. -/
def Node.Stays (g : Game sp) (n : Node sp) (play : Nat → Nat) : Prop :=
  ∀ k, play k ∈ n.transitions ∧ play k ∈ g.sysTrans ∧ sp.now (play (k + 1)) = sp.next (play k)

namespace Game

variable {o : Options}

/-- **Cycles satisfy every assumption in turn.** A step that stays in a cycle node is to a state of
the node under its new row, and makes progress; a play that stays there visits the first column of
every row again and again. -/
theorem cycle_of_build (ho : g.OfStates) (hb : g.build o = .ok graph) {n : Node sp}
    (hn : n ∈ graph.nodes) (hkind : n.kind = .cycle) :
    ∃ r, n.rank = some r ∧
      (∀ v ∈ n.states, v ∈ n.transitions → v ∈ g.sysTrans → sp.next v ∈ g.strip n.states →
        sp.next v ∈ n.states ∧ g.Progresses r v) ∧
      ∀ play, n.Stays g play → ∀ row, row < g.numRows → ∀ k, ∃ l, k ≤ l ∧
        sp.digit (play l) g.marker = row ∧ play l ∈ g.layer r row 0 := by
  have hs := shaped_of_shapeFault?_eq_none (shapeFault?_of_build hb)
  obtain ⟨bare, f, hf, hbare⟩ := exists_folds_of_build ho hb
  have hcycling : graph.Cycling g := by
    rcases hbare with hdead | ⟨ranking, -, hfinished⟩
    · exact hdead.cycling.folds hf
    · exact (hfinished.cycling hs ho).folds hf
  obtain ⟨r, hrank, hprogresses⟩ := hcycling.progresses n hn hkind
  refine ⟨r, hrank, fun v _ hv hsys hstay ↦ hprogresses v hv hsys hstay,
    fun play hplay row hrow k ↦ ?_⟩
  have hmem : ∀ k, play k ∈ n.states := fun k ↦ hcycling.mem_states n hn hkind _ (hplay k).1
  have hnext : ∀ k, sp.next (play k) ∈ n.states := fun k ↦ by
    refine ((hcycling.current n hn hkind).mem_iff_of_now_eq (sp.next_lt _)
      (StateSet.lt_size (hmem (k + 1))) ?_).mpr (hmem (k + 1))
    rw [Space.now_next, (hplay k).2.2]
  have hdigit : ∀ k, sp.digit (sp.next (play k)) g.marker = sp.digit (play (k + 1)) g.marker :=
    fun k ↦ by rw [← (hplay k).2.2, Space.digit_now_of_current hs.marker_current]
  choose column hfirst hprogress using fun k ↦ (hprogresses (play k) (hplay k).1 (hplay k).2.1
    (hs.mem_strip_of_mem (hcycling.current n hn hkind) (hnext k))).2
  have hstep : ∀ k, (0 < column k ∧
        sp.digit (play (k + 1)) g.marker = sp.digit (play k) g.marker ∧ column (k + 1) < column k) ∨
      (column k = 0 ∧
        sp.digit (play (k + 1)) g.marker = (sp.digit (play k) g.marker + 1) % g.numRows) := by
    intro k
    rw [← hdigit]
    refine (hprogress k).imp_left fun ⟨hpos, hrow', c, hlt, hc⟩ ↦ ⟨hpos, hrow', ?_⟩
    -- the column that is met next is the one of the next state
    have hc' : g.FirstIn r (sp.digit (play (k + 1)) g.marker) c (play (k + 1)) := by
      rw [← hdigit, hrow', ← ho.firstIn_congr (sp.next_lt _) (StateSet.lt_size (hmem (k + 1)))]
      · exact hc
      · rw [← (hplay k).2.2, Space.bare_now]
    rw [(hfirst (k + 1)).unique hc']
    exact hlt
  obtain ⟨l, hl, hrowl, hzero⟩ := exists_first_column (fun k ↦ sp.digit (play k) g.marker) column
    (fun k ↦ hs.digit_marker_lt (play k)) hstep hrow k
  have hlayer := (hfirst l).1
  rw [hzero, hrowl] at hlayer
  exact ⟨l, hl, hrowl, hlayer⟩

/-- The game of turns has a cycle with a step that stays in it. -/
theorem cycle_turns : ∃ graph, turns.build {} = .ok graph ∧ ∃ n ∈ graph.nodes,
    n.kind = .cycle ∧ ∃ r, n.rank = some r ∧
      (∃ v, v ∈ n.states ∧ bits.next v ∈ n.states ∧ turns.Progresses r v) ∧
      ∀ play, n.Stays turns play → ∀ row, row < turns.numRows → ∀ k, ∃ l, k ≤ l ∧
        bits.digit (play l) turns.marker = row ∧ play l ∈ turns.layer r row 0 := by
  obtain ⟨graph, hb, hany⟩ := exists_of_any_build (g := turns) (o := {})
    (p := fun graph ↦ graph.nodes.any fun n ↦ decide (n.kind = .cycle) &&
      (List.range 64).any fun v ↦ decide (v ∈ n.states ∧ v ∈ n.transitions ∧
        v ∈ turns.sysTrans ∧ bits.next v ∈ turns.strip n.states)) (by decide +kernel)
  obtain ⟨n, hn, hstep⟩ := List.any_eq_true.mp hany
  rw [Bool.and_eq_true, decide_eq_true_iff, List.any_eq_true] at hstep
  obtain ⟨hkind, v, -, hv⟩ := hstep
  rw [decide_eq_true_iff] at hv
  obtain ⟨hvs, hvt, hsys, hstay⟩ := hv
  obtain ⟨r, hrank, hprogress, hplay⟩ := cycle_of_build twoPlayer_turns.toOfStates hb hn hkind
  exact ⟨graph, hb, n, hn, hkind, r, hrank, ⟨v, hvs, hprogress v hvs hvt hsys hstay⟩, hplay⟩

end Game

end JusticeViolation

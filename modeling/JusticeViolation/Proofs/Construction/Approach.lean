import JusticeViolation.Proofs.Construction.Justice

/-!
# Plays that stay in an approach

An approach leads into a cycle, but it need not be left: an answer of the system may lead from one
path back to another, or to an earlier point of the same. Every step that stays in the approach
makes progress all the same, as in a cycle. So a play that never leaves it visits the first column
of every row again and again, and the environment keeps its assumptions there too; a play that does
not is bound to leave.
-/

namespace JusticeViolation

variable {sp : Space} {g : Game sp} {graph : Graph sp}

open Decomposition in
/-- The steps that stay in an approach make progress. -/
theorem Node.From.progresses {ranking : Ranking sp} {item : Item sp} (hs : g.Shaped)
    (ho : g.OfStates) {n : Node sp} (h : n.From g ranking item)
    (hkind : n.kind = .attractorNotFromCycle) {v : Nat} (hv : v ∈ n.transitions)
    (hsys : v ∈ g.sysTrans) (hstay : sp.next v ∈ n.states) : g.Progresses item.node.rank v := by
  have happroach := h.mem_states hv
  rw [h.approach_eq hkind] at hstay happroach
  exact Item.Ready.approach_progress hs ho h.ready h.explored happroach (h.mem_inner hv) hsys hstay

namespace Game

/-- A play that goes on making progress comes to the first column of every row again and again. -/
theorem exists_first_column_of_progresses (hs : g.Shaped) (ho : g.OfStates) {r : Nat}
    {play : Nat → Nat} (hlt : ∀ k, play k < sp.size)
    (hnow : ∀ k, sp.now (play (k + 1)) = sp.next (play k))
    (hprogress : ∀ k, g.Progresses r (play k)) {row : Nat} (hrow : row < g.numRows) (k : Nat) :
    ∃ l, k ≤ l ∧ sp.digit (play l) g.marker = row ∧ play l ∈ g.layer r row 0 := by
  have hdigit : ∀ k, sp.digit (sp.next (play k)) g.marker = sp.digit (play (k + 1)) g.marker :=
    fun k ↦ by rw [← hnow, Space.digit_now_of_current hs.marker_current]
  have hbare : ∀ k, sp.bare g.marker (sp.next (play k)) = sp.bare g.marker (play (k + 1)) :=
    fun k ↦ by rw [← hnow, Space.bare_now]
  choose column hfirst hstep using hprogress
  have hfall : ∀ k, (0 < column k ∧
        sp.digit (play (k + 1)) g.marker = sp.digit (play k) g.marker ∧ column (k + 1) < column k) ∨
      (column k = 0 ∧
        sp.digit (play (k + 1)) g.marker = (sp.digit (play k) g.marker + 1) % g.numRows) := by
    intro k
    rw [← hdigit]
    refine (hstep k).imp_left fun ⟨hpos, hsame, c, hc, hfirst'⟩ ↦ ⟨hpos, hsame, ?_⟩
    rw [ho.firstIn_congr (sp.next_lt _) (hlt (k + 1)) (hbare k), ← hsame, hdigit] at hfirst'
    rwa [(hfirst (k + 1)).unique hfirst']
  obtain ⟨l, hl, hrowl, hzero⟩ := exists_first_column (fun k ↦ sp.digit (play k) g.marker) column
    (fun k ↦ hs.digit_marker_lt (play k)) hfall hrow k
  have hlayer := (hfirst l).1
  rw [hzero, hrowl] at hlayer
  exact ⟨l, hl, hrowl, hlayer⟩

variable {o : Options}

/-- **A play that stays in an approach satisfies every assumption.** A step that stays in an
approach makes progress, so a play that stays there for ever visits the first column of every row
again and again. -/
theorem approach_of_build (ho : g.OfStates) (hm : o.mergeAttractors = false)
    (hb : g.build o = .ok graph) {n : Node sp} (hn : n ∈ graph.nodes)
    (hkind : n.kind = .attractorNotFromCycle) :
    ∃ r, n.rank = some r ∧
      (∀ v ∈ n.transitions, v ∈ g.sysTrans → sp.next v ∈ n.states → g.Progresses r v) ∧
      ∀ play, n.Stays g play → ∀ row, row < g.numRows → ∀ k, ∃ l, k ≤ l ∧
        sp.digit (play l) g.marker = row ∧ play l ∈ g.layer r row 0 := by
  have hs := shaped_of_shapeFault?_eq_none (shapeFault?_of_build hb)
  obtain ⟨bare, rfl, hbare⟩ := exists_finish_of_build ho hb
  obtain ⟨m, hmem, heq⟩ := exists_node_of_mem_finish hm hn
  have hkind' : m.kind = .attractorNotFromCycle := by rw [heq] at hkind; exact hkind
  have hroot : m.kind ≠ .initial := hkind' ▸ fun h0 ↦ by cases h0
  rcases hbare with hdead | ⟨ranking, -, hfinished⟩
  · -- a deadlock has no approach
    have hstuck := hdead.kind_eq hmem hroot
    rw [hkind'] at hstuck
    cases hstuck
  · obtain ⟨item, hfrom⟩ := hfinished.exists_from hmem hroot
    rw [heq]
    refine ⟨item.node.rank, hfrom.rank_eq, fun v hv hsys hstay ↦
      hfrom.progresses hs ho hkind' hv hsys hstay, fun play hplay row hrow k ↦ ?_⟩
    have hstates : ∀ k, play k ∈ m.states := fun k ↦ hfrom.mem_states (hplay k).1
    have hnext : ∀ k, sp.next (play k) ∈ m.states := fun k ↦ by
      refine ((hfrom.current hs ho).mem_iff_of_now_eq (sp.next_lt _)
        (StateSet.lt_size (hstates (k + 1))) ?_).mpr (hstates (k + 1))
      rw [Space.now_next, (hplay k).2.2]
    exact exists_first_column_of_progresses hs ho (fun k ↦ StateSet.lt_size (hstates k))
      (fun k ↦ (hplay k).2.2)
      (fun k ↦ hfrom.progresses hs ho hkind' (hplay k).1 (hplay k).2.1 (hnext k)) hrow k

/-! ## A game with such a play -/

/-- The system can stay where both bits are clear, or set its bit; from then on the play goes
between the states in which one bit is set. Both assumptions ask for the bit of the system to be
clear. -/
def lingering : Game bits where
  initial := .literal ⟨0⟩ 0 ∩ .literal ⟨2⟩ 0
  envTrans := (.literal ⟨2⟩ 0 ∩ .literal ⟨1⟩ 0) ∪ (.literal ⟨2⟩ 1 ∩ .literal ⟨1⟩ 1)
  sysTrans := (.literal ⟨0⟩ 0 ∩ .literal ⟨2⟩ 0) ∪ (.literal ⟨2⟩ 1 ∩ .literal ⟨3⟩ 0) ∪
    (.literal ⟨0⟩ 1 ∩ .literal ⟨2⟩ 0 ∩ .literal ⟨3⟩ 1)
  ranks := [.univ]
  progress := [[[.literal ⟨2⟩ 0, .univ], [.literal ⟨2⟩ 0, .univ]]]
  assumptions := [⟨"clear", "!s"⟩, ⟨"clear again", "!s"⟩]
  guarantees := [⟨"never", "false"⟩]
  marker := ⟨4⟩

theorem ofStates_lingering : lingering.OfStates where
  initial := (StateSet.DependsOn.literal (by decide) (by decide) 0).inter
    (.literal (by decide) (by decide) 0)
  ranks := fun s hs ↦ List.mem_singleton.mp hs ▸ .univ _
  layers := fun matrix hm row hrow s hs ↦ by
    rw [List.mem_singleton.mp hm, List.mem_pair, or_self] at hrow
    rw [hrow] at hs
    rcases List.mem_pair.mp hs with rfl | rfl
    · exact .literal (by decide) (by decide) 0
    · exact .univ _

/-- Two steps that follow each other in a circle make a play that stays. -/
private theorem exists_stays {n : Node sp} {v w : Nat} (hv : v ∈ n.transitions ∧ v ∈ g.sysTrans)
    (hw : w ∈ n.transitions ∧ w ∈ g.sysTrans) (hvw : sp.now w = sp.next v)
    (hwv : sp.now v = sp.next w) : ∃ play, n.Stays g play := by
  refine ⟨fun k ↦ if k % 2 = 0 then v else w, fun k ↦ ?_⟩
  dsimp only
  rcases Nat.mod_two_eq_zero_or_one k with hk | hk
  · rw [if_pos hk, if_neg (by omega)]
    exact ⟨hv.1, hv.2, hvw⟩
  · rw [if_neg (by omega), if_pos (by omega)]
    exact ⟨hw.1, hw.2, hwv⟩

private theorem exists_stays_lingering : ∃ graph, lingering.build {} = .ok graph ∧
    ∃ n ∈ graph.nodes, n.kind = .attractorNotFromCycle ∧ ∃ play, n.Stays lingering play := by
  obtain ⟨graph, hb, hany⟩ := exists_of_any_build (g := lingering) (o := {})
    (p := fun graph ↦ graph.nodes.any fun n ↦ decide (n.kind = .attractorNotFromCycle) &&
      (List.range 64).any fun v ↦ (List.range 64).any fun w ↦
        decide ((v ∈ n.transitions ∧ v ∈ lingering.sysTrans) ∧
          (w ∈ n.transitions ∧ w ∈ lingering.sysTrans) ∧
          bits.now w = bits.next v ∧ bits.now v = bits.next w)) (by decide +kernel)
  obtain ⟨n, hn, hplay⟩ := List.any_eq_true.mp hany
  rw [Bool.and_eq_true, decide_eq_true_iff, List.any_eq_true] at hplay
  obtain ⟨hkind, v, -, hplay⟩ := hplay
  obtain ⟨w, -, hplay⟩ := List.any_eq_true.mp hplay
  rw [decide_eq_true_iff] at hplay
  obtain ⟨hv, hw, hvw, hwv⟩ := hplay
  exact ⟨graph, hb, n, hn, hkind, exists_stays hv hw hvw hwv⟩

/-- **Approaches are not always left.** -/
theorem not_forall_leaves_approach : ¬∀ (g : Game bits) (o : Options) (graph : Graph bits),
    g.OfStates → o.mergeAttractors = false → g.build o = .ok graph →
      ∀ n ∈ graph.nodes, n.kind = .attractorNotFromCycle → ∀ play, ¬n.Stays g play := by
  obtain ⟨graph, hb, n, hn, hkind, play, hplay⟩ := exists_stays_lingering
  exact fun h ↦ h lingering {} graph ofStates_lingering rfl hb n hn hkind play hplay

/-- The play that lingers visits both first columns again and again. -/
theorem approach_lingering : ∃ graph, lingering.build {} = .ok graph ∧ ∃ n ∈ graph.nodes,
    n.kind = .attractorNotFromCycle ∧ ∃ r play, n.rank = some r ∧ n.Stays lingering play ∧
      ∀ row, row < 2 → ∀ k, ∃ l, k ≤ l ∧
        bits.digit (play l) lingering.marker = row ∧ play l ∈ lingering.layer r row 0 := by
  obtain ⟨graph, hb, n, hn, hkind, play, hplay⟩ := exists_stays_lingering
  obtain ⟨r, hrank, -, hvisits⟩ := approach_of_build ofStates_lingering rfl hb hn hkind
  exact ⟨graph, hb, n, hn, hkind, r, play, hrank, hplay, hvisits play hplay⟩

end Game

end JusticeViolation

import JusticeViolation.Proofs.Construction.Outcome
import Mathlib.Data.Finset.Card

/-!
# Descents are left

Every answer to a committed choice of a descent lies in the descent or in a lower rank. The choices
come from the rounds of an attractor, and each step goes to an earlier round or to a lower rank. So
a play that stays in a descent never comes to a state twice, whatever the row, and its steps are not
more than the descent has states: it goes on to a lower rank, or leaves the system stuck.
-/

namespace JusticeViolation

variable {sp : Space} {g : Game sp} {graph : Graph sp}

/-! ## Plays in a node -/

/-- The steps of a play that stays in a node, rows aside. -/
def Node.Plays (g : Game sp) (n : Node sp) (play : List Nat) : Prop :=
  (∀ v ∈ play, v ∈ n.transitions ∧ v ∈ g.sysTrans) ∧
    play.IsChain fun v w ↦ sp.bare g.marker w = sp.bare g.marker (sp.next v)

/-- What is claimed of a descent: its states can be numbered, rows aside, so that every step that
stays in it leads to a smaller number. -/
structure Node.Descends (g : Game sp) (n : Node sp) : Prop where
  mem_states : ∀ v ∈ n.transitions, v ∈ n.states
  responds : ∀ v ∈ n.transitions, ∀ w ∈ g.trans, g.SameChoice v w →
    sp.next w ∈ n.states ∨ ∃ r q, n.rank = some r ∧ q < r ∧ sp.next w ∈ g.level q
  falls : ∃ round : Nat → Nat, ∀ v ∈ n.transitions, v ∈ g.sysTrans → ∀ w ∈ n.transitions,
    sp.bare g.marker w = sp.bare g.marker (sp.next v) →
      round (sp.bare g.marker w) < round (sp.bare g.marker v)

/-- A play in a descent has no more steps than the descent has states. -/
theorem Node.Descends.length_le {n : Node sp} (h : n.Descends g) {play : List Nat}
    (hplay : n.Plays g play) :
    play.length ≤ (n.states.members.image (sp.bare g.marker)).card := by
  obtain ⟨hsteps, hchain⟩ := hplay
  obtain ⟨round, hfalls⟩ := h.falls
  have hfall : (play.map (sp.bare g.marker)).IsChain fun a b ↦ round b < round a := by
    rw [List.isChain_map]
    exact hchain.imp_of_mem_imp fun v w hv hw hvw ↦
      hfalls v (hsteps v hv).1 (hsteps v hv).2 w (hsteps w hw).1 hvw
  have hnodup : (play.map (sp.bare g.marker)).Nodup := by
    have htrans : Trans (fun a b ↦ round b < round a) (fun a b ↦ round b < round a)
        fun a b ↦ round b < round a := ⟨fun hab hbc ↦ hbc.trans hab⟩
    refine (List.isChain_iff_pairwise.mp hfall).imp fun hlt heq ↦ ?_
    rw [heq] at hlt
    exact Nat.lt_irrefl _ hlt
  have hsub : (play.map (sp.bare g.marker)).toFinset ⊆
      n.states.members.image (sp.bare g.marker) := fun b hb ↦ by
    obtain ⟨v, hv, rfl⟩ := List.mem_map.mp (List.mem_toFinset.mp hb)
    exact Finset.mem_image_of_mem _
      (StateSet.mem_members.mpr (h.mem_states v (hsteps v hv).1))
  calc play.length = (play.map (sp.bare g.marker)).length := (List.length_map _).symm
    _ = (play.map (sp.bare g.marker)).toFinset.card :=
      (List.toFinset_card_of_nodup hnodup).symm
    _ ≤ (n.states.members.image (sp.bare g.marker)).card := Finset.card_le_card hsub

/-! ## Descents -/

/-- There is no step in a deadlock. -/
theorem Game.Deadlock.descends (h : g.Deadlock graph) {n : Node sp} (hn : n ∈ graph.nodes)
    (hkind : n.kind = .attractorFromCycle) : n.Descends g := by
  obtain ⟨hstates, htrans, -⟩ :=
    h.stuck n hn (h.wellFormed.id_ne_initialId hn (hkind ▸ fun h0 ↦ by cases h0))
  have hdead : ∀ v ∈ n.transitions, ∀ w ∈ g.sysTrans, ¬g.SameChoice v w := fun v hv ↦ by
    rw [htrans] at hv
    exact (Game.mem_deadlocking.mp (StateSet.mem_inter.mp (Game.determinize_subset hv)).1).2
  refine ⟨fun v hv ↦ ?_, fun v hv w hw hvw ↦ ?_, fun _ ↦ 0, fun v hv hsys ↦ ?_⟩
  · rw [htrans] at hv
    rw [hstates]
    exact Game.mem_domain_of_mem (Game.determinize_subset hv)
  · exact absurd hvw (hdead v hv w (Game.mem_trans.mp hw).2)
  · exact absurd (Space.AgreeOff.refl _ v) (hdead v hv v hsys)

open Decomposition in
/-- Descents of a rank. -/
theorem Node.From.descends {ranking : Ranking sp} {item : Item sp} (hs : g.Shaped)
    (ho : g.OfStates) {n : Node sp} (h : n.From g ranking item)
    (hkind : n.kind = .attractorFromCycle) : n.Descends g := by
  have hdescent : ∀ v ∈ n.transitions, v ∈ (item.split g (lower ranking item.node)).descent :=
    fun v hv ↦ h.descent_eq hkind ▸ h.mem_states hv
  refine ⟨fun v hv ↦ h.mem_states hv, fun v hv w hw hvw ↦ ?_, ?_⟩
  · rw [h.descent_eq hkind]
    refine (Item.Ready.next_of_descent hs ho h.ready h.explored (hdescent v hv) (h.mem_inner hv)
      hw hvw).imp_right fun hlower ↦ ?_
    obtain ⟨q, hq, hlevel⟩ :=
      Game.Shaped.exists_level_of_mem_below (h.ready.lower_subset _ hlower)
    exact ⟨item.node.rank, q, h.rank_eq, hq, hlevel⟩
  · obtain ⟨round, hround⟩ := Item.Ready.exists_round_descent hs ho h.ready h.explored
    refine ⟨round, fun v hv hsys w hw hbare ↦ ?_⟩
    rw [hbare]
    refine (hround v (hdescent v hv) (h.mem_inner hv) hsys).resolve_left fun hlower ↦ ?_
    -- the next state is one of the descent, so it is not below
    have hwl := h.mem_level hs ho (h.mem_states hw)
    refine (Game.mem_level.mp hwl).2 (h.ready.lower_subset w ?_)
    exact (h.ready.untagged_lower.mem_iff_of_bare_eq (StateSet.lt_size hw) (sp.next_lt v)
      hbare).mpr hlower

namespace Game

variable {o : Options}

/-- **Descents are left.** Every answer to a committed choice of a descent lies in the descent or
in a lower rank, and a play that stays in it has no more steps than it has states. -/
theorem descent_of_build (ho : g.OfStates) (hm : o.mergeAttractors = false)
    (hb : g.build o = .ok graph) {n : Node sp} (hn : n ∈ graph.nodes)
    (hkind : n.kind = .attractorFromCycle) :
    (∀ v ∈ n.transitions, ∀ w ∈ g.trans, g.SameChoice v w →
      sp.next w ∈ n.states ∨ ∃ r q, n.rank = some r ∧ q < r ∧ sp.next w ∈ g.level q) ∧
    ∀ play, n.Plays g play →
      play.length ≤ (n.states.members.image (sp.bare g.marker)).card := by
  have hs := shaped_of_shapeFault?_eq_none (shapeFault?_of_build hb)
  obtain ⟨bare, rfl, hbare⟩ := exists_finish_of_build ho hb
  obtain ⟨m, hmem, heq⟩ := exists_node_of_mem_finish hm hn
  have hkind' : m.kind = .attractorFromCycle := by rw [heq] at hkind; exact hkind
  have hdescends : m.Descends g := by
    rcases hbare with hdead | ⟨ranking, -, hfinished⟩
    · exact hdead.descends hmem hkind'
    · obtain ⟨item, hfrom⟩ := hfinished.exists_from hmem (hkind' ▸ fun h0 ↦ by cases h0)
      exact hfrom.descends hs ho hkind'
  rw [heq]
  exact ⟨hdescends.responds, fun play hplay ↦ hdescends.length_le hplay⟩

/-- The system keeps its bit while the environment has its own set, and clears it else. States with
the bit of the system set have a higher rank. -/
def stairs : Game bits where
  initial := .literal ⟨0⟩ 1 ∩ .literal ⟨2⟩ 1
  envTrans := .univ
  sysTrans := (.literal ⟨0⟩ 1 ∩ .literal ⟨2⟩ 1 ∩ .literal ⟨3⟩ 1) ∪
    (.literal ⟨0⟩ 0 ∪ .literal ⟨2⟩ 0) ∩ .literal ⟨3⟩ 0
  ranks := [.literal ⟨2⟩ 0, .univ]
  progress := [[[.literal ⟨0⟩ 1, .univ], [.literal ⟨0⟩ 0, .univ]], [[.univ], [.univ]]]
  assumptions := [⟨"set", "e"⟩, ⟨"cleared", "!e"⟩]
  guarantees := [⟨"never", "false"⟩]
  marker := ⟨4⟩

theorem ofStates_stairs : stairs.OfStates where
  initial := (StateSet.DependsOn.literal (by decide) (by decide) 1).inter
    (.literal (by decide) (by decide) 1)
  ranks := fun s hs ↦ by
    rcases List.mem_pair.mp hs with rfl | rfl
    · exact .literal (by decide) (by decide) 0
    · exact .univ _
  layers := fun matrix hm row hrow s hs ↦ by
    rcases List.mem_pair.mp hm with rfl | rfl
    · rcases List.mem_pair.mp hrow with rfl | rfl <;> rcases List.mem_pair.mp hs with rfl | rfl
      · exact .literal (by decide) (by decide) 1
      · exact .univ _
      · exact .literal (by decide) (by decide) 0
      · exact .univ _
    · rcases List.mem_pair.mp hrow with rfl | rfl <;>
        exact List.mem_singleton.mp hs ▸ .univ _

/-- The stairs have a descent in which a play takes two steps. -/
theorem descent_stairs : ∃ graph, stairs.build {} = .ok graph ∧ ∃ n ∈ graph.nodes,
    n.kind = .attractorFromCycle ∧
      (∀ v ∈ n.transitions, ∀ w ∈ stairs.trans, stairs.SameChoice v w →
        bits.next w ∈ n.states ∨
          ∃ r q, n.rank = some r ∧ q < r ∧ bits.next w ∈ stairs.level q) ∧
      ∃ play, n.Plays stairs play ∧ play.length = 2 ∧
        play.length ≤ (n.states.members.image (bits.bare stairs.marker)).card := by
  obtain ⟨graph, hb, hany⟩ := exists_of_any_build (g := stairs) (o := {})
    (p := fun graph ↦ graph.nodes.any fun n ↦ decide (n.kind = .attractorFromCycle) &&
      (List.range 64).any fun v ↦ (List.range 64).any fun w ↦
        decide ((v ∈ n.transitions ∧ v ∈ stairs.sysTrans) ∧
          (w ∈ n.transitions ∧ w ∈ stairs.sysTrans) ∧
          bits.bare stairs.marker w = bits.bare stairs.marker (bits.next v))) (by decide +kernel)
  obtain ⟨n, hn, hplay⟩ := List.any_eq_true.mp hany
  rw [Bool.and_eq_true, decide_eq_true_iff, List.any_eq_true] at hplay
  obtain ⟨hkind, v, -, hplay⟩ := hplay
  obtain ⟨w, -, hplay⟩ := List.any_eq_true.mp hplay
  rw [decide_eq_true_iff] at hplay
  obtain ⟨hv, hw, hvw⟩ := hplay
  obtain ⟨hresponds, hlength⟩ := descent_of_build ofStates_stairs rfl hb hn hkind
  have hplays : n.Plays stairs [v, w] :=
    ⟨fun u hu ↦ by rcases List.mem_pair.mp hu with rfl | rfl <;> assumption,
      List.isChain_pair.mpr hvw⟩
  exact ⟨graph, hb, n, hn, hkind, hresponds, [v, w], hplays, rfl, hlength _ hplays⟩

end Game

end JusticeViolation

import Mathlib.Logic.Relation
import JusticeViolation.Proofs.Game.Solution
import JusticeViolation.Proofs.Ranking.Levels

/-!
# The ranking graph as reachability

States are valuations read through their current copies, and a round takes one to another. For
ranks and initial states that are sets of states, the edges of the ranking graph say exactly what
rounds can do: the marker leads to the nodes that they can get to from an initial state, and a node
to the lower ones that they can get to from one of its states without passing through a higher node.

The relations of the game may be any sets of valuations.
-/

namespace JusticeViolation

namespace Game

variable {sp : Space} {g : Game sp}

/-! ## Paths -/

/-- A move of the environment and an answer of the system take the state `u` to the state `w`. -/
def RoundTo (g : Game sp) (u w : Nat) : Prop :=
  ∃ v ∈ g.envTrans, v ∈ g.sysTrans ∧ sp.now v = u ∧ sp.next v = w

/-- Rounds, perhaps none, take the state `u` to the state `w`; all states on the way, these two
among them, satisfy `p`. -/
def PathWithin (g : Game sp) (p : Nat → Prop) (u w : Nat) : Prop :=
  p u ∧ Relation.ReflTransGen (fun a b ↦ g.RoundTo a b ∧ p b) u w

/-- What is reachable within sets of states is reachable along a path of states. -/
theorem reachable_iff_pathWithin {states within : StateSet sp} {p : Nat → Prop}
    (hstates : states.Current) (hp : ∀ i, i < sp.size → (p (sp.now i) ↔ i ∈ within)) {i : Nat}
    (hi : i < sp.size) :
    g.Reachable states within i ↔ ∃ u ∈ states, g.PathWithin p (sp.now u) (sp.now i) := by
  constructor
  · intro hreach
    induction hreach with
    | @start i hs hw => exact ⟨i, hs, (hp i hi).mpr hw, .refl⟩
    | @round v i hv ht hw hnext ih =>
      obtain ⟨u, hu, hpu, hpath⟩ := ih (StateSet.lt_size hv.mem_within)
      obtain ⟨henv, hsys⟩ := mem_trans.mp ht
      exact ⟨u, hu, hpu, hpath.tail ⟨⟨v, henv, hsys, rfl, hnext⟩, (hp i hi).mpr hw⟩⟩
  · rintro ⟨u, hu, hpu, hpath⟩
    -- by induction on the path, whichever valuation its last state is read from
    generalize hw : sp.now i = w at hpath
    induction hpath generalizing i with
    | refl =>
      have hs : i ∈ states := (hstates.mem_iff_of_now_eq (StateSet.lt_size hu) hi hw.symm).mp hu
      exact .start hs ((hp i hi).mp (hw ▸ hpu))
    | tail _ hround ih =>
      obtain ⟨⟨v, henv, hsys, hnow, hnext⟩, hpw⟩ := hround
      exact .round (ih (StateSet.lt_size henv) hnow) (mem_trans.mpr ⟨henv, hsys⟩)
        ((hp i hi).mp (hw ▸ hpw)) (hnext.trans hw.symm)

/-- Some state of a set can be reached if and only if a path leads there. -/
theorem exists_reachable_iff {states within target : StateSet sp} {p : Nat → Prop}
    (hstates : states.Current) (hp : ∀ i, i < sp.size → (p (sp.now i) ↔ i ∈ within)) :
    (∃ w ∈ target, g.Reachable states within w) ↔
      ∃ u ∈ states, ∃ w ∈ target, g.PathWithin p (sp.now u) (sp.now w) := by
  constructor
  · rintro ⟨w, hw, hreach⟩
    obtain ⟨u, hu, hpath⟩ :=
      (reachable_iff_pathWithin hstates hp (StateSet.lt_size hw)).mp hreach
    exact ⟨u, hu, w, hw, hpath⟩
  · rintro ⟨u, hu, w, hw, hpath⟩
    exact ⟨w, hw, (reachable_iff_pathWithin hstates hp (StateSet.lt_size hw)).mpr ⟨u, hu, hpath⟩⟩

/-- The lowest rank of a state does not depend on what else a valuation says. -/
theorem Lowest.congr (hz : ∀ s ∈ g.ranks, s.Current) {r i j : Nat} (hi : i < sp.size)
    (hj : j < sp.size) (hij : sp.now i = sp.now j) : g.Lowest r i ↔ g.Lowest r j := by
  have hrank : ∀ q, i ∈ g.rank q ↔ j ∈ g.rank q := by
    intro q
    rw [rank]
    rcases Nat.lt_or_ge q g.ranks.length with hq | hq
    · rw [List.getD_eq_getElem _ _ hq]
      exact (hz _ (List.getElem_mem hq)).mem_iff_of_now_eq hi hj hij
    · rw [List.getD_eq_default _ _ hq]
      exact iff_of_false (StateSet.not_mem_empty i) (StateSet.not_mem_empty j)
  simp only [Lowest, hrank]

end Game

namespace Ranking

open Game

variable {sp : Space} {g : Game sp} {ranking : Ranking sp}

theorem current_states (hz : ∀ s ∈ g.ranks, s.Current) (hr : g.ranking? = some ranking)
    {n : RankNode sp} (hn : n ∈ ranking.nodes) : n.states.Current := fun i j hi hj hij ↦ by
  rw [mem_states_iff hr hn, mem_states_iff hr hn]
  exact Lowest.congr hz hi hj (Space.now_eq_iff.mpr hij)

/-- The state `i` lies in a node of rank at most `r`. -/
def UpTo (ranking : Ranking sp) (r i : Nat) : Prop :=
  ∃ n ∈ ranking.nodes, n.rank ≤ r ∧ i ∈ n.states

/-- What the edges of a ranking graph say about the game. -/
structure Leads (ranking : Ranking sp) (g : Game sp) : Prop where
  /-- The marker leads to the nodes that can be reached. -/
  entries_iff : ∀ r, r ∈ ranking.entries ↔ ∃ m ∈ ranking.nodes, m.rank = r ∧
    ∃ u ∈ g.initial, ∃ w ∈ m.states, g.PathWithin (fun _ ↦ True) (sp.now u) (sp.now w)
  falling_entries : ranking.entries.Pairwise (· > ·)
  /-- A node leads to the lower nodes that can be reached without passing through a higher one. -/
  targets_iff : ∀ n ∈ ranking.nodes, ∀ r, r ∈ n.targets ↔
    ∃ m ∈ ranking.nodes, m.rank = r ∧ r < n.rank ∧
      ∃ u ∈ n.states, ∃ w ∈ m.states, g.PathWithin (ranking.UpTo n.rank) (sp.now u) (sp.now w)
  falling_targets : ∀ n ∈ ranking.nodes, n.targets.Pairwise (· > ·)

/-- Over states, `statesUpTo` is what a path up to a rank may pass through. -/
theorem upTo_now_iff (hz : ∀ s ∈ g.ranks, s.Current) (hr : g.ranking? = some ranking) {r i : Nat}
    (hi : i < sp.size) : ranking.UpTo r (sp.now i) ↔ i ∈ ranking.statesUpTo r := by
  rw [mem_statesUpTo]
  refine exists_congr fun n ↦ and_congr_right fun hn ↦ and_congr_right fun _ ↦ ?_
  exact (current_states hz hr hn).mem_iff_of_now_eq (sp.now_lt i) hi (sp.now_now i)

theorem leads_of_ranking? (hi : g.initial.Current) (hz : ∀ s ∈ g.ranks, s.Current)
    (hr : g.ranking? = some ranking) : ranking.Leads g where
  entries_iff := fun r ↦ by
    rw [mem_entries_iff hr]
    refine exists_congr fun m ↦ and_congr_right fun _ ↦ and_congr_right fun _ ↦ ?_
    exact exists_reachable_iff hi fun _ hj ↦ iff_of_true trivial (StateSet.mem_univ.mpr hj)
  falling_entries := pairwise_entries hr
  targets_iff := fun n hn r ↦ by
    rw [mem_targets_iff hr hn]
    refine exists_congr fun m ↦ and_congr_right fun _ ↦ and_congr_right fun _ ↦
      and_congr_right fun _ ↦ ?_
    exact exists_reachable_iff (current_states hz hr hn) fun _ hj ↦ upTo_now_iff hz hr hj
  falling_targets := fun _ hn ↦ pairwise_targets hr hn

/-- No ranking graph means that no path leads from an initial state into a rank. -/
theorem ranking?_eq_none_iff_forall (hi : g.initial.Current) :
    g.ranking? = none ↔ ∀ s ∈ g.ranks, ∀ u ∈ g.initial, ∀ w ∈ s,
      ¬g.PathWithin (fun _ ↦ True) (sp.now u) (sp.now w) := by
  have hpath : ∀ s, (∃ w ∈ s, g.Reachable g.initial .univ w) ↔
      ∃ u ∈ g.initial, ∃ w ∈ s, g.PathWithin (fun _ ↦ True) (sp.now u) (sp.now w) := fun s ↦
    exists_reachable_iff hi fun _ hj ↦ iff_of_true trivial (StateSet.mem_univ.mpr hj)
  rw [ranking?_eq_none_iff]
  constructor
  · intro hno s hs u hu w hw huw
    obtain ⟨v, hv, hreach⟩ := (hpath s).mpr ⟨u, hu, w, hw, huw⟩
    obtain ⟨r, hr⟩ := exists_mem_rank_iff.mpr ⟨s, hs, hv⟩
    exact hno v hreach r hr
  · intro hno i hreach r hr
    obtain ⟨s, hs, his⟩ := exists_mem_rank_iff.mp ⟨r, hr⟩
    obtain ⟨u, hu, w, hw, huw⟩ := (hpath s).mp ⟨i, his, hreach⟩
    exact hno s hs u hu w hw huw

/-- **The edges of the ranking graph are reachability**, and there is none if and only if rounds
cannot get from an initial state into a rank. -/
theorem ranking?_reachability (hi : g.initial.Current) (hz : ∀ s ∈ g.ranks, s.Current) :
    (g.ranking? = none ↔ ∀ s ∈ g.ranks, ∀ u ∈ g.initial, ∀ w ∈ s,
      ¬g.PathWithin (fun _ ↦ True) (sp.now u) (sp.now w)) ∧
    ∀ ranking, g.ranking? = some ranking → ranking.Leads g :=
  ⟨ranking?_eq_none_iff_forall hi, fun _ ↦ leads_of_ranking? hi hz⟩

end Ranking

/-! ## A way that leads up first -/

namespace Game

/-- From rank 1 the play gets to rank 0 by way of rank 2 only. -/
def uphill : Game bits :=
  { turns with
    initial := .literal ⟨0⟩ 1 ∩ .literal ⟨2⟩ 0
    sysTrans := (.literal ⟨0⟩ 0 ∩ .literal ⟨1⟩ 0) ∪
      (.literal ⟨0⟩ 1 ∩ .literal ⟨2⟩ 0 ∩ .literal ⟨1⟩ 1 ∩ .literal ⟨3⟩ 1) ∪
      (.literal ⟨0⟩ 1 ∩ .literal ⟨2⟩ 1 ∩ .literal ⟨3⟩ 0)
    ranks := [.literal ⟨0⟩ 0, .literal ⟨0⟩ 0 ∪ .literal ⟨2⟩ 0, .univ] }

theorem reachability_uphill : ∃ ranking, uphill.ranking? = some ranking ∧
    ranking.entries = [2, 1, 0] ∧
    ranking.nodes.map (fun n ↦ (n.rank, n.targets)) = [(2, [1, 0]), (1, []), (0, [])] ∧
    ranking.Leads uphill := by
  have hcleared : ∀ x : VarId, x ∈ bits.registry.ids → x.isPrimed = false →
      (.literal x 0 : StateSet bits).Current := fun _ hx hc ↦ .literal hx hc 0
  have hi : uphill.initial.Current :=
    (StateSet.DependsOn.literal (by decide) (by decide) 1).inter
      (.literal (by decide) (by decide) 0)
  have hz : ∀ s ∈ uphill.ranks, s.Current := fun s hs ↦ by
    rcases List.mem_cons.mp hs with rfl | hs
    · exact hcleared _ (by decide) rfl
    rcases List.mem_pair.mp hs with rfl | rfl
    · exact (hcleared _ (by decide) rfl).union (hcleared _ (by decide) rfl)
    · exact .univ _
  have hany : (uphill.ranking?.any fun ranking ↦ decide (ranking.entries = [2, 1, 0] ∧
      ranking.nodes.map (fun n ↦ (n.rank, n.targets)) = [(2, [1, 0]), (1, []), (0, [])]))
        = true := by decide +kernel
  obtain ⟨ranking, hr, hedges⟩ := (Option.any_eq_true _ _).mp hany
  obtain ⟨hentries, htargets⟩ := of_decide_eq_true hedges
  exact ⟨ranking, hr, hentries, htargets, (Ranking.ranking?_reachability hi hz).2 ranking hr⟩

end Game

end JusticeViolation

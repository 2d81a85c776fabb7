import JusticeViolation.Proofs.Attractor
import Mathlib.Order.Bounds.Defs

/-!
# What the environment can force

In an *alternating* game a move of the environment is a choice of its next values, and an answer of
the system a choice of its own. Nothing else matters for the next state but its row, which is left
open. A strategy of the environment makes a move for every history; it *forces a visit* to some
states, staying in others, if every play that follows it is led there by some step, or to a state
in which the system has no answer, and the number of steps has a bound.

The attractor is the set of states with such a strategy. Its committed choices are one: every answer
to them is in a state that was taken in by an earlier round, so the number of the round bounds the
number of steps. The other way round, the attractor is closed: in a state outside it every move has
an answer that leads neither to the target nor into the attractor. So it is the least closed set.
-/

namespace JusticeViolation.Game

variable {sp : Space} {g : Game sp}

/-! ## Moves and answers -/

/-- Beside the row marker, every variable belongs to a player. A move of the environment speaks of
the present state and of its own next values, an answer of the system of its own as well. -/
structure Alternating (g : Game sp) : Prop where
  aux : ∀ x ∈ sp.registry.currentIds,
    (sp.registry.declaration? x).any (·.role == .aux) = true → x = g.marker
  envTrans : g.envTrans.DependsOn fun x ↦
    (x.isPrimed = false ∧ x ≠ g.marker) ∨ x ∈ g.envNextIds
  sysTrans : g.sysTrans.DependsOn fun x ↦
    (x.isPrimed = false ∧ x ≠ g.marker) ∨ x ∈ g.envNextIds ∨ x ∈ g.sysNextIds

/-- The step `w` is a legal answer to the move that `v` makes in its state. -/
def Answers (g : Game sp) (v w : Nat) : Prop :=
  w ∈ g.sysTrans ∧ sp.now w = sp.now v ∧ g.SameMove v w

/-- In the state `i` the environment has a move all of whose legal answers lead into `target`. -/
def Controls (g : Game sp) (i : Nat) (target : Nat → Prop) : Prop :=
  ∃ v ∈ g.envTrans, sp.now v = sp.now i ∧ ∀ w, g.Answers v w → target (sp.next w)

theorem SameChoice.answers {v w : Nat} (h : g.SameChoice v w) (hw : w ∈ g.sysTrans) :
    g.Answers v w := ⟨hw, h.now_eq.symm, h.sameMove⟩

namespace Alternating

variable (h : g.Alternating)

include h

/-- The next value of a variable other than the row marker is chosen by a player. -/
theorem twin_mem {x : VarId} (hx : x ∈ sp.registry.ids) (hcurrent : x.isPrimed = false)
    (hmarker : x ≠ g.marker) : x.twin ∈ g.envNextIds ∨ x.twin ∈ g.sysNextIds := by
  have hprimed : x.twin.isPrimed = true := by rw [VarId.isPrimed_twin, hcurrent, Bool.not_false]
  have hdeclared : sp.registry.declaration? x.twin = sp.registry.declaration? x := by
    rw [Registry.declaration?, Registry.declaration?, VarId.index_twin_div]
  have hrole : ∀ {role : Role},
      (sp.registry.declaration? x).any (·.role == role) = true →
        x.twin ∈ sp.registry.roleIds role true := fun hany ↦ by
    rw [Registry.roleIds, List.mem_filter, Bool.and_eq_true, beq_iff_eq, hdeclared]
    exact ⟨sp.registry.twin_mem_ids hx, hprimed, hany⟩
  obtain ⟨v, hv⟩ : ∃ v, sp.registry.declaration? x = some v := by
    rw [Registry.mem_ids, Registry.length] at hx
    exact ⟨_, List.getElem?_eq_getElem (by omega)⟩
  cases hv' : v.role with
  | env => exact Or.inl (hrole (by rw [hv, Option.any_some, hv', beq_self_eq_true]))
  | sys => exact Or.inr (hrole (by rw [hv, Option.any_some, hv', beq_self_eq_true]))
  | aux =>
    refine absurd (h.aux x (sp.registry.mem_currentIds.mpr ⟨hx, hcurrent⟩) ?_) hmarker
    rw [hv, Option.any_some, hv', beq_self_eq_true]

/-- An answer to a move can be given whatever else the choice says, and leads to the same state but
for its row. -/
theorem exists_sameChoice {v w : Nat} (hw : g.Answers v w) :
    ∃ u ∈ g.sysTrans, g.SameChoice v u ∧
      sp.bare g.marker (sp.next u) = sp.bare g.marker (sp.next w) := by
  obtain ⟨hsys, hnow, hmove⟩ := hw
  obtain ⟨u, hu, hin, hout⟩ := sp.exists_mixed w v (· ∈ g.sysNextIds)
  have hnowu : ∀ x, x.isPrimed = false → sp.digit u x = sp.digit w x := fun x hx ↦ by
    rw [hout x fun hmem ↦ by simp [(sysNextIds_mem hmem).2] at hx]
    exact (Space.now_eq_iff.mp hnow x hx).symm
  have henvu : ∀ x ∈ g.envNextIds, sp.digit u x = sp.digit w x := fun x hx ↦ by
    by_cases hmem : x ∈ g.sysNextIds
    · exact hin x hmem
    · rw [hout x hmem, hmove x hx]
  refine ⟨u, (h.sysTrans u w hu (StateSet.lt_size hsys) fun x hx ↦ ?_).mpr hsys,
    fun x hx ↦ (hout x hx).symm, Space.bare_eq_iff.mpr fun x hx hm ↦ ?_⟩
  · rcases hx with hx | hx | hx
    · exact hnowu x hx.1
    · exact henvu x hx
    · exact hin x hx
  · rw [Space.digit_next_of_current hx, Space.digit_next_of_current hx]
    by_cases hid : x ∈ sp.registry.ids
    · rcases h.twin_mem hid hx hm with hmem | hmem
      · exact henvu _ hmem
      · exact hin _ hmem
    · have hid' : x.twin ∉ sp.registry.ids := fun hid' ↦
        hid (VarId.twin_twin x ▸ sp.registry.twin_mem_ids hid')
      rw [Space.digit_of_not_mem hid', Space.digit_of_not_mem hid']

/-- **Forcing, by moves and answers.** -/
theorem mem_forcing_iff {t : StateSet sp} (ht : t.Untagged g.marker) {v : Nat} :
    v ∈ g.forcing t ↔ v ∈ g.envTrans ∧ ∀ w, g.Answers v w → sp.next w ∈ t := by
  rw [mem_forcing ht.current]
  refine and_congr_right fun _ ↦ ⟨fun hall w hw ↦ ?_, fun hall w hw hvw ↦ hall w (hvw.answers hw)⟩
  obtain ⟨u, hu, hvu, hbare⟩ := h.exists_sameChoice hw
  exact (ht.mem_iff_of_bare_eq (sp.next_lt u) (sp.next_lt w) hbare).mp (hall u hu hvu)

/-- What the environment forces does not depend on the row it starts in. -/
theorem rowless : g.Rowless := by
  intro t ht
  have key : ∀ i j, i < sp.size → j < sp.size →
      (∀ x, x.isPrimed = true ∨ x ≠ g.marker → sp.digit i x = sp.digit j x) →
        i ∈ g.forcing t → j ∈ g.forcing t := by
    intro i j hi hj hij hmem
    obtain ⟨henv, hall⟩ := (h.mem_forcing_iff ht).mp hmem
    refine (h.mem_forcing_iff ht).mpr ⟨(h.envTrans i j hi hj fun x hx ↦ hij x ?_).mp henv,
      fun w hw ↦ ?_⟩
    · exact hx.symm.imp (fun hx ↦ (envNextIds_mem hx).2) And.right
    · -- the same answer, given in the row of `i`
      obtain ⟨hsys, hnow, hmove⟩ := hw
      obtain ⟨u, hu, hin, hout⟩ := sp.exists_mixed w i (·.isPrimed = true)
      have hnext : sp.next u = sp.next w := by
        rw [← sp.now_next w, Space.next_eq_now_iff]
        intro x hx
        rw [Space.digit_next_of_current hx]
        exact hin _ (by rw [VarId.isPrimed_twin, hx, Bool.not_false])
      rw [← hnext]
      refine hall u ⟨(h.sysTrans u w hu (StateSet.lt_size hsys) fun x hx ↦ ?_).mpr hsys,
        Space.now_eq_iff.mpr fun x hx ↦ hout x (by simp [hx]), fun x hx ↦ ?_⟩
      · by_cases hp : x.isPrimed = true
        · exact hin x hp
        · have hm : x ≠ g.marker := by
            rcases hx with hx | hx | hx
            · exact hx.2
            · exact absurd (envNextIds_mem hx).2 hp
            · exact absurd (sysNextIds_mem hx).2 hp
          rw [hout x hp, hij x (Or.inr hm)]
          exact (Space.now_eq_iff.mp hnow x (Bool.eq_false_iff.mpr hp)).symm
      · have hp := (envNextIds_mem hx).2
        rw [hin x hp, ← hmove x hx, hij x (Or.inl hp)]
  intro i j hi hj hij
  exact ⟨key i j hi hj hij, key j i hj hi fun x hx ↦ (hij x hx).symm⟩

end Alternating

/-! ## Plays -/

/-- The histories of the plays from `i` that follow the strategy `σ`, the latest state first, as
long as no step has led to `target`. A strategy names a move by a step that makes it. -/
inductive Play (g : Game sp) (target : StateSet sp) (σ : List Nat → Nat) (i : Nat) :
    List Nat → Prop
  | start : Play g target σ i [i]
  | step {history : List Nat} {w : Nat} (hplay : Play g target σ i history)
      (hanswer : g.Answers (σ history) w) (hmiss : sp.next w ∉ target) :
      Play g target σ i (sp.next w :: history)

/-- From `i` the environment can force the play by finitely many steps, one at least, into `target`
or into a deadlock of the system, and stays in `states` until then: some strategy has a legal move
in every state that a play comes to before, and before a fixed number of steps the play is over. -/
def ForcesVisit (g : Game sp) (states target : StateSet sp) (i : Nat) : Prop :=
  ∃ (σ : List Nat → Nat) (n : Nat), ∀ j history, g.Play target σ i (j :: history) →
    history.length < n ∧ j ∈ states ∧ σ (j :: history) ∈ g.envTrans ∧
      sp.now (σ (j :: history)) = sp.now j

/-! ## The attractor -/

section Attractor

variable {states lower : StateSet sp} (h : g.Alternating) (hs : states.Untagged g.marker)
  (hl : lower.Untagged g.marker)

include h hs hl

/-- **The attractor is closed.** -/
theorem Alternating.mem_candidates_of_controls {i : Nat} (hi : i ∈ states)
    (hcontrols : g.Controls i fun j ↦ j ∈ lower ∨ j ∈ (g.attractor states lower).candidates) :
    i ∈ (g.attractor states lower).candidates := by
  have hattracts := attracts_attractor h.rowless hs hl
  obtain ⟨v, henv, hvi, hall⟩ := hcontrols
  have hlt := StateSet.lt_size henv
  have hforce : v ∈ g.forcing (lower ∪ (g.attractor states lower).candidates) :=
    (h.mem_forcing_iff (hl.union hattracts.untagged)).mpr
      ⟨henv, fun w hw ↦ StateSet.mem_union.mpr (hall w hw)⟩
  have hv : v ∈ states := (hs.current.mem_iff_of_now_eq hlt (StateSet.lt_size hi) hvi).mpr hi
  exact (hattracts.current.mem_iff_of_now_eq hlt (StateSet.lt_size hi) hvi).mp
    (mem_candidates_of_forcing hv hforce)

/-- **The attractor lies in every closed set**, by induction on its rounds. -/
theorem Alternating.candidates_subset {d : Set Nat}
    (hd : ∀ i ∈ states, g.Controls i (fun j ↦ j ∈ lower ∨ j ∈ d) → i ∈ d) :
    ∀ i ∈ (g.attractor states lower).candidates, i ∈ d := by
  refine (growAttractor_induction
    (P := fun a ↦ g.Attracts states lower a ∧ ∀ i ∈ a.candidates, i ∈ d) (fun a ⟨ha, hsub⟩ ↦ ?_) _
    ⟨.empty states lower, fun i hi ↦ absurd hi (StateSet.not_mem_empty i)⟩).2
  refine ⟨ha.grow h.rowless hs hl, fun i hi ↦ ?_⟩
  rcases StateSet.mem_union.mp hi with hi | hi
  · exact hsub i hi
  · obtain ⟨hlt, v, hv, hvi⟩ := mem_domain.mp hi
    obtain ⟨hforce, hvs, -⟩ := Attracts.mem_choices.mp hv
    obtain ⟨henv, hall⟩ := (h.mem_forcing_iff (hl.union ha.untagged)).mp hforce
    refine hd i ((hs.current.mem_iff_of_now_eq (StateSet.lt_size hv) hlt hvi).mp hvs)
      ⟨v, henv, hvi, fun w hw ↦ ?_⟩
    exact (StateSet.mem_union.mp (hall w hw)).imp_right (hsub _)

/-- From the attractor the committed choices force a visit: the play descends round by round. -/
theorem Alternating.forcesVisit {i : Nat} (hi : i ∈ (g.attractor states lower).candidates) :
    g.ForcesVisit states lower i := by
  have hattracts := attracts_attractor h.rowless hs hl
  obtain ⟨round, n, hrounds⟩ := exists_rounds_attractor h.rowless hs hl
  have hcommitted : ∀ j, ∃ v, j ∈ (g.attractor states lower).candidates →
      v ∈ (g.attractor states lower).inner ∧ sp.now v = sp.now j := fun j ↦ by
    by_cases hj : j ∈ (g.attractor states lower).candidates
    · rw [← hattracts.domain_eq] at hj
      obtain ⟨-, v, hv, hvj⟩ := mem_domain.mp hj
      exact ⟨v, fun _ ↦ ⟨hv, hvj⟩⟩
    · exact ⟨0, fun hj' ↦ absurd hj' hj⟩
  choose move hmove using hcommitted
  have hdescends : ∀ history, g.Play lower (fun history ↦ move (history.headD 0)) i history →
      ∃ j earlier, history = j :: earlier ∧ j ∈ (g.attractor states lower).candidates ∧
        earlier.length + round (sp.bare g.marker j) < n := by
    intro history hplay
    induction hplay with
    | start => exact ⟨i, [], rfl, hi, by simpa using hrounds.round_lt i hi⟩
    | @step history w hplay hanswer hmiss ih =>
      obtain ⟨j, earlier, rfl, hj, hlt⟩ := ih
      obtain ⟨hv, hvj⟩ := hmove j hj
      -- the answer is in an earlier round, since it has not led to the target
      obtain ⟨u, hu, hvu, hbare⟩ := h.exists_sameChoice hanswer
      have hmiss' : sp.next u ∉ lower := fun hlow ↦
        hmiss ((hl.mem_iff_of_bare_eq (sp.next_lt u) (sp.next_lt w) hbare).mp hlow)
      obtain ⟨hnext, hround⟩ := (hrounds.falls _ hv u hu hvu).resolve_left hmiss'
      have hbarej : sp.bare g.marker (move j) = sp.bare g.marker j := by
        rw [← sp.bare_now, hvj, sp.bare_now]
      refine ⟨sp.next w, j :: earlier, rfl, (hattracts.untagged.mem_iff_of_bare_eq (sp.next_lt u)
        (sp.next_lt w) hbare).mp hnext, ?_⟩
      rw [hbare, hbarej] at hround
      rw [List.length_cons]
      omega
  refine ⟨fun history ↦ move (history.headD 0), n, fun j history hplay ↦ ?_⟩
  obtain ⟨_, _, heq, hj, hlt⟩ := hdescends _ hplay
  obtain ⟨rfl, rfl⟩ := List.cons.inj heq
  obtain ⟨hv, hvj⟩ := hmove j hj
  exact ⟨by omega, hattracts.subset_states j hj, hattracts.mem_envTrans hl.current hv, hvj⟩

/-- A state from which a visit can be forced is in the attractor, by induction on the steps that
are left. -/
theorem Alternating.mem_candidates_of_forcesVisit {i : Nat}
    (hforces : g.ForcesVisit states lower i) :
    i ∈ (g.attractor states lower).candidates := by
  obtain ⟨σ, n, hσ⟩ := hforces
  have key : ∀ (left : Nat) (j : Nat) (history : List Nat), g.Play lower σ i (j :: history) →
      n ≤ history.length + left → j ∈ (g.attractor states lower).candidates := by
    intro left
    induction left with
    | zero =>
      intro j history hplay hleft
      exact absurd (hσ j history hplay).1 (Nat.not_lt.mpr hleft)
    | succ left ih =>
      intro j history hplay hleft
      obtain ⟨-, hj, henv, hnow⟩ := hσ j history hplay
      refine h.mem_candidates_of_controls hs hl hj ⟨_, henv, hnow, fun w hw ↦ ?_⟩
      by_cases hlow : sp.next w ∈ lower
      · exact Or.inl hlow
      · refine Or.inr (ih _ _ (.step hplay hw hlow) ?_)
        rw [List.length_cons]
        omega
  exact key n i [] .start (Nat.le_add_left _ _)

/-- **The attractor is what the environment can force.** Its rounds come to an end; it is the least
set that holds every state in which the environment has a move into it or down; it holds exactly the
states from which a strategy forces a visit; and it is the domain of its committed choices. -/
theorem attractor_isLeast :
    (∀ fuel, sp.size ≤ fuel →
      g.growAttractor states lower fuel ⟨∅, ∅⟩ = g.attractor states lower) ∧
    IsLeast {d : Set Nat | ∀ i ∈ states, g.Controls i (fun j ↦ j ∈ lower ∨ j ∈ d) → i ∈ d}
      {i | i ∈ (g.attractor states lower).candidates} ∧
    (∀ i, i ∈ (g.attractor states lower).candidates ↔ g.ForcesVisit states lower i) ∧
    g.domain (g.attractor states lower).inner = (g.attractor states lower).candidates := by
  refine ⟨fun fuel hfuel ↦ ?_, ⟨fun i ↦ h.mem_candidates_of_controls hs hl,
    fun d hd ↦ h.candidates_subset hs hl hd⟩,
    fun i ↦ ⟨h.forcesVisit hs hl, h.mem_candidates_of_forcesVisit hs hl⟩,
    (attracts_attractor h.rowless hs hl).domain_eq⟩
  have hstart : (⟨∅, ∅⟩ : Attractor sp).candidates.Current := .empty _
  obtain ⟨more, rfl⟩ := Nat.exists_eq_add_of_le hfuel
  exact growAttractor_add hstart (Nat.le_add_right _ _) more

end Attractor

/-- The game of a slope. From `10` the environment leads the play to `01`, and from there, if it
chooses well, to `11`; in `00` all its moves have an answer that stays. In `11` the system is
stuck. -/
def slope : Game bits :=
  { turns with
    envTrans := .literal ⟨1⟩ 0 ∪ (.literal ⟨0⟩ 0 ∩ .literal ⟨2⟩ 1)
    sysTrans := (.literal ⟨0⟩ 0 ∩ .literal ⟨2⟩ 0) ∪
      (.literal ⟨3⟩ 1 ∩ (.literal ⟨0⟩ 0 ∪ .literal ⟨2⟩ 0)) }

theorem alternating_slope : slope.Alternating where
  aux := by decide
  envTrans := by
    refine .union (.literal (by decide) (Or.inr (by decide)) 0) (.inter ?_ ?_)
    · exact .literal (by decide) (Or.inl (by decide)) 0
    · exact .literal (by decide) (Or.inl (by decide)) 1
  sysTrans := by
    have hstate : ∀ x ∈ [(⟨0⟩ : VarId), ⟨2⟩], (.literal x 0 : StateSet bits).DependsOn fun x ↦
        (x.isPrimed = false ∧ x ≠ slope.marker) ∨ x ∈ slope.envNextIds ∨ x ∈ slope.sysNextIds := by
      intro x hx
      rcases List.mem_pair.mp hx with rfl | rfl <;>
        exact .literal (by decide) (Or.inl (by decide)) 0
    refine .union (.inter (hstate _ (by decide)) (hstate _ (by decide))) (.inter ?_ ?_)
    · exact .literal (by decide) (Or.inr (Or.inr (by decide))) 1
    · exact (hstate _ (by decide)).union (hstate _ (by decide))

/-- The state `11` of the slope. -/
def summit : StateSet bits := .literal ⟨0⟩ 1 ∩ .literal ⟨2⟩ 1

theorem untagged_summit : summit.Untagged slope.marker :=
  .inter (.literal (by decide) (by decide) 1) (.literal (by decide) (by decide) 1)

/-- On the slope, a visit to `11` can be forced from `01` and from `10`, a deadlock from `11`, and
nothing from `00`. -/
theorem attractor_isLeast_slope :
    (∀ i ∈ [1, 4, 5], slope.ForcesVisit .univ summit i) ∧ ¬slope.ForcesVisit .univ summit 0 ∧
      IsLeast {d : Set Nat | ∀ i ∈ (StateSet.univ : StateSet bits),
          slope.Controls i (fun j ↦ j ∈ summit ∨ j ∈ d) → i ∈ d}
        {i | i ∈ (slope.attractor .univ summit).candidates} ∧
      slope.growAttractor .univ summit 1000 ⟨∅, ∅⟩ = slope.attractor .univ summit := by
  obtain ⟨hfuel, hleast, hiff, -⟩ :=
    attractor_isLeast alternating_slope (.univ _ : StateSet.univ.Untagged slope.marker)
      untagged_summit
  exact ⟨fun i hi ↦ (hiff i).mp ((by decide +kernel : ∀ i ∈ [1, 4, 5],
      i ∈ (slope.attractor .univ summit).candidates) i hi),
    fun hforces ↦ absurd ((hiff 0).mpr hforces) (by decide +kernel), hleast,
    hfuel 1000 (by decide)⟩

end JusticeViolation.Game

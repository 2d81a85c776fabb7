import JusticeViolation.Split
import JusticeViolation.Proofs.Game.Solution
import JusticeViolation.Proofs.StateSet.Closure

/-!
# The attractor of a rank

The candidates of a rank grow round by round, each round with a choice for every state that it
takes in. So the candidates are exactly the states with a committed choice, no state has two, and
every committed choice forces the play into the candidates or below. In the end no state outside
the candidates has such a choice. A choice is committed for states of an earlier round than the one
that takes its state in, so a play that follows the choices descends round by round.
-/

namespace JusticeViolation.Game

variable {sp : Space} {g : Game sp}

/-! ## Relations between states and moves -/

theorem domain_union (s t : StateSet sp) : g.domain (s ∪ t) = g.domain s ∪ g.domain t := by
  refine StateSet.ext_mem fun i ↦ ?_
  rw [StateSet.mem_union, mem_domain, mem_domain, mem_domain]
  constructor
  · rintro ⟨hi, v, hv, hvi⟩
    rcases StateSet.mem_union.mp hv with hv | hv
    · exact Or.inl ⟨hi, v, hv, hvi⟩
    · exact Or.inr ⟨hi, v, hv, hvi⟩
  · rintro (⟨hi, v, hv, hvi⟩ | ⟨hi, v, hv, hvi⟩)
    · exact ⟨hi, v, StateSet.mem_union.mpr (Or.inl hv), hvi⟩
    · exact ⟨hi, v, StateSet.mem_union.mpr (Or.inr hv), hvi⟩

/-- Two relations that commit different states can be united. -/
theorem Functional.union {s t : StateSet sp} (hs : g.Functional s) (ht : g.Functional t)
    (hst : ∀ v ∈ s, ∀ w ∈ t, sp.now v = sp.now w → g.SameMove v w) : g.Functional (s ∪ t) := by
  intro v hv w hw hvw
  rcases StateSet.mem_union.mp hv with hv | hv
  · rcases StateSet.mem_union.mp hw with hw | hw
    · exact hs v hv w hw hvw
    · exact hst v hv w hw hvw
  · rcases StateSet.mem_union.mp hw with hw | hw
    · exact (hst w hw v hv hvw.symm).symm
    · exact ht v hv w hw hvw

/-- So can a relation and choices that are in it or belong to states without one. -/
theorem Functional.union_new {s t : StateSet sp} (hs : g.Functional s) (ht : g.Functional t)
    (hnew : ∀ v ∈ t, v ∈ s ∨ v ∉ g.domain s) : g.Functional (s ∪ t) := by
  refine hs.union ht fun v hv w hw hvw ↦ ?_
  rcases hnew w hw with hws | hno
  · exact hs v hv w hws hvw
  · exact absurd (mem_domain.mpr ⟨StateSet.lt_size hw, v, hv, hvw⟩) hno

theorem Functional.empty : g.Functional ∅ := fun v hv ↦ absurd hv (StateSet.not_mem_empty v)

theorem forcing_mono {s t : StateSet sp} (hs : s.Current) (ht : t.Current)
    (hst : ∀ i ∈ s, i ∈ t) {v : Nat} (hv : v ∈ g.forcing s) : v ∈ g.forcing t := by
  obtain ⟨henv, hall⟩ := (mem_forcing hs).mp hv
  exact (mem_forcing ht).mpr ⟨henv, fun w hw hvw ↦ hst _ (hall w hw hvw)⟩

/-- Whether a choice forces a set of states does not depend on the row of its state. -/
theorem Shaped.forcing_bare (h : g.Shaped) {t : StateSet sp} (ht : t.Current) :
    (g.forcing t).DependsOn (· ≠ g.marker) := by
  have key : ∀ i j, i < sp.size → j < sp.size →
      (∀ x, x ≠ g.marker → sp.digit i x = sp.digit j x) → i ∈ g.forcing t → j ∈ g.forcing t := by
    intro i j hi hj hij hmem
    obtain ⟨henv, hall⟩ := (mem_forcing ht).mp hmem
    refine (mem_forcing ht).mpr ⟨(h.envTrans_bare i j hi hj hij).mp henv, fun w hw hjw ↦ ?_⟩
    -- the same answer, given in the row of `i`
    have htag : sp.digit i g.marker < sp.domainSize g.marker := sp.digit_lt i g.marker
    set u := sp.put w g.marker (sp.digit i g.marker) with hu
    have huw : ∀ x, x ≠ g.marker → sp.digit u x = sp.digit w x := fun x hx ↦
      Space.digit_put_of_ne htag hx
    have husys : u ∈ g.sysTrans :=
      (h.sysTrans_bare u w (Space.put_lt htag) (StateSet.lt_size hw) huw).mpr hw
    have hiu : g.SameChoice i u := by
      intro x hx
      by_cases hxm : x = g.marker
      · rw [hxm, hu, Space.digit_put_self htag]
      · rw [huw x hxm, hij x hxm, hjw x hx]
    have hnext : sp.next u = sp.next w := by
      rw [← sp.now_next w, Space.next_eq_now_iff]
      intro x hx
      rw [Space.digit_next_of_current hx, huw]
      rintro hxm
      have hp := VarId.isPrimed_twin x
      rw [hxm, h.marker_current, hx] at hp
      simp at hp
    exact hnext ▸ hall u husys hiu
  intro i j hi hj hij
  exact ⟨key i j hi hj hij, key j i hj hi fun x hx ↦ (hij x hx).symm⟩

/-- What the environment forces with untagged states as its target does not depend on the row it
starts in. -/
def Rowless (g : Game sp) : Prop :=
  ∀ t : StateSet sp, t.Untagged g.marker →
    (g.forcing t).DependsOn fun x ↦ x.isPrimed = true ∨ x ≠ g.marker

theorem Shaped.rowless (h : g.Shaped) : g.Rowless := fun _ ht ↦
  (h.forcing_bare ht.current).mono fun _ ↦ Or.inr

theorem untagged_domain {s : StateSet sp}
    (hs : s.DependsOn fun x ↦ x.isPrimed = true ∨ x ≠ g.marker) :
    (g.domain s).Untagged g.marker := by
  have hids : ∀ x ∈ sp.registry.primedIds, x ∈ sp.registry.ids := fun x hx ↦
    (sp.registry.mem_primedIds.mp hx).1
  refine (hs.forget hids).mono_ids fun x hx hxp ↦ ?_
  have hcurrent : x.isPrimed ≠ true := fun hprimed ↦
    hxp.2 (sp.registry.mem_primedIds.mpr ⟨hx, hprimed⟩)
  exact ⟨Bool.eq_false_iff.mpr hcurrent, hxp.1.resolve_left hcurrent⟩

namespace AnswerFree

variable {s t : StateSet sp}

theorem of_current (hs : s.Current) : g.AnswerFree s := fun _ hv _ hw hvw ↦
  (hs.mem_iff_of_now_eq (StateSet.lt_size hv) hw hvw.now_eq).mp hv

theorem union (hs : g.AnswerFree s) (ht : g.AnswerFree t) : g.AnswerFree (s ∪ t) := by
  intro v hv w hw hvw
  rcases StateSet.mem_union.mp hv with hv | hv
  · exact StateSet.mem_union.mpr (Or.inl (hs v hv w hw hvw))
  · exact StateSet.mem_union.mpr (Or.inr (ht v hv w hw hvw))

theorem inter (hs : g.AnswerFree s) (ht : g.AnswerFree t) : g.AnswerFree (s ∩ t) := by
  intro v hv w hw hvw
  obtain ⟨hvs, hvt⟩ := StateSet.mem_inter.mp hv
  exact StateSet.mem_inter.mpr ⟨hs v hvs w hw hvw, ht v hvt w hw hvw⟩

theorem sdiff_current (hs : g.AnswerFree s) (ht : t.Current) : g.AnswerFree (s \ t) := by
  intro v hv w hw hvw
  obtain ⟨hvs, hvt⟩ := StateSet.mem_sdiff.mp hv
  refine StateSet.mem_sdiff.mpr ⟨hs v hvs w hw hvw, fun hwt ↦ hvt ?_⟩
  exact (ht.mem_iff_of_now_eq (StateSet.lt_size hv) hw hvw.now_eq).mpr hwt

theorem forcing (h : g.AnswerFree g.envTrans) (ht : t.Current) : g.AnswerFree (g.forcing t) := by
  intro v hv w hw hvw
  obtain ⟨henv, hall⟩ := (mem_forcing ht).mp hv
  exact (mem_forcing ht).mpr ⟨h v henv w hw hvw, fun u hu hwu ↦ hall u hu (hvw.trans hwu)⟩

theorem landing (ht : t.Current) : g.AnswerFree (g.landing t) := by
  intro v hv w hw hvw
  obtain ⟨-, u, hu, hvu, hut⟩ := (mem_landing ht).mp hv
  exact (mem_landing ht).mpr ⟨hw, u, hu, hvw.symm.trans hvu, hut⟩

theorem empty : g.AnswerFree ∅ := fun v hv ↦ absurd hv (StateSet.not_mem_empty v)

end AnswerFree

/-! ## One round -/

/-- What holds of an attractor while it grows within `states` towards `lower`. -/
structure Attracts (g : Game sp) (states lower : StateSet sp) (a : Attractor sp) : Prop where
  subset_states : ∀ i ∈ a.candidates, i ∈ states
  untagged : a.candidates.Untagged g.marker
  domain_eq : g.domain a.inner = a.candidates
  functional : g.Functional a.inner
  forced : ∀ v ∈ a.inner, v ∈ g.forcing (lower ∪ a.candidates)
  answerFree : g.AnswerFree g.envTrans → g.AnswerFree a.inner

namespace Attracts

variable {states lower : StateSet sp} {a : Attractor sp}

theorem current (h : g.Attracts states lower a) : a.candidates.Current := h.untagged.current

theorem mem_envTrans (h : g.Attracts states lower a) (hl : lower.Current) {v : Nat}
    (hv : v ∈ a.inner) : v ∈ g.envTrans :=
  ((mem_forcing (hl.union h.current)).mp (h.forced v hv)).1

theorem empty (states lower : StateSet sp) : g.Attracts states lower ⟨∅, ∅⟩ where
  subset_states := fun i hi ↦ absurd hi (StateSet.not_mem_empty i)
  untagged := .empty _
  domain_eq := by
    refine StateSet.ext_mem fun i ↦ iff_of_false (fun hi ↦ ?_) (StateSet.not_mem_empty i)
    obtain ⟨-, v, hv, -⟩ := mem_domain.mp hi
    exact StateSet.not_mem_empty v hv
  functional := .empty
  forced := fun v hv ↦ absurd hv (StateSet.not_mem_empty v)
  answerFree := fun _ ↦ .empty

/-- The choices of one round. -/
theorem mem_choices {v : Nat} :
    v ∈ (g.forcing (lower ∪ a.candidates) ∩ states) \ a.candidates ↔
      v ∈ g.forcing (lower ∪ a.candidates) ∧ v ∈ states ∧ v ∉ a.candidates := by
  rw [StateSet.mem_sdiff, StateSet.mem_inter, and_assoc]

/-- **One round.** -/
theorem grow (hg : g.Rowless) (hs : states.Untagged g.marker) (hl : lower.Untagged g.marker)
    (h : g.Attracts states lower a) :
    let choices := (g.forcing (lower ∪ a.candidates) ∩ states) \ a.candidates
    g.Attracts states lower
      ⟨a.candidates ∪ g.domain choices, a.inner ∪ g.determinize choices⟩ := by
  intro choices
  have hcand : (a.candidates ∪ g.domain choices).Current := h.current.union (current_domain _)
  have htarget : (lower ∪ a.candidates).Untagged g.marker := hl.union h.untagged
  have hforced : ∀ v ∈ g.forcing (lower ∪ a.candidates),
      v ∈ g.forcing (lower ∪ (a.candidates ∪ g.domain choices)) := fun v hv ↦ by
    refine forcing_mono htarget.current (hl.current.union hcand) (fun i hi ↦ ?_) hv
    rcases StateSet.mem_union.mp hi with hi | hi
    · exact StateSet.mem_union.mpr (Or.inl hi)
    · exact StateSet.mem_union.mpr (Or.inr (StateSet.mem_union.mpr (Or.inl hi)))
  exact {
    subset_states := by
      intro i hi
      rcases StateSet.mem_union.mp hi with hi | hi
      · exact h.subset_states i hi
      · obtain ⟨hlt, v, hv, hvi⟩ := mem_domain.mp hi
        exact (hs.current.mem_iff_of_now_eq (StateSet.lt_size hv) hlt hvi).mp
          (mem_choices.mp hv).2.1
    untagged := by
      refine h.untagged.union (untagged_domain ?_)
      exact ((hg _ htarget).inter (hs.mono fun _ hx ↦ Or.inr hx.2)).sdiff
        (h.untagged.mono fun _ hx ↦ Or.inr hx.2)
    domain_eq := by rw [domain_union, domain_determinize, h.domain_eq]
    functional := by
      -- the states of the round are new, so they had no choice before
      refine h.functional.union_new (functional_determinize _) fun v hv ↦ Or.inr ?_
      rw [h.domain_eq]
      exact (mem_choices.mp (determinize_subset hv)).2.2
    forced := by
      intro v hv
      rcases StateSet.mem_union.mp hv with hv | hv
      · exact hforced v (h.forced v hv)
      · exact hforced v (mem_choices.mp (determinize_subset hv)).1
    answerFree := fun henv ↦ by
      refine (h.answerFree henv).union (answerFree_determinize ?_)
      have hforcing := AnswerFree.forcing henv htarget.current
      exact (hforcing.inter (.of_current hs.current)).sdiff_current
        h.current }

end Attracts

/-! ## All rounds -/

variable {states lower : StateSet sp}

/-- Whatever one round keeps holds of every number of rounds. -/
theorem growAttractor_induction {P : Attractor sp → Prop}
    (hgrow : ∀ a : Attractor sp, P a →
      let choices := (g.forcing (lower ∪ a.candidates) ∩ states) \ a.candidates
      P ⟨a.candidates ∪ g.domain choices, a.inner ∪ g.determinize choices⟩)
    (fuel : Nat) {a : Attractor sp} (ha : P a) : P (g.growAttractor states lower fuel a) := by
  induction fuel generalizing a with
  | zero => exact ha
  | succ fuel ih =>
    rw [growAttractor]
    split
    · exact ha
    · exact ih (hgrow a ha)

/-- A round that takes in a state takes in a new one. -/
theorem card_lt_of_round {a : Attractor sp} (ha : a.candidates.Current)
    (hne : (g.domain ((g.forcing (lower ∪ a.candidates) ∩ states) \ a.candidates)).isEmpty
      = false) :
    a.candidates.members.card < (a.candidates ∪
      g.domain ((g.forcing (lower ∪ a.candidates) ∩ states) \ a.candidates)).members.card := by
  obtain ⟨j, hj⟩ := StateSet.isEmpty_eq_false_iff.mp hne
  refine StateSet.card_members_lt (fun k hk ↦ StateSet.mem_union.mpr (Or.inl hk))
    (StateSet.mem_union.mpr (Or.inr hj)) fun hjc ↦ ?_
  obtain ⟨hlt, w, hw, hwj⟩ := mem_domain.mp hj
  exact (Attracts.mem_choices.mp hw).2.2
    ((ha.mem_iff_of_now_eq (StateSet.lt_size hw) hlt hwj).mpr hjc)

/-- With as many rounds as there are valuations, the last one takes in nothing. -/
private theorem domain_growAttractor_isEmpty {fuel : Nat} {a : Attractor sp}
    (ha : a.candidates.Current) (hfuel : sp.size ≤ fuel + a.candidates.members.card) :
    (g.domain ((g.forcing (lower ∪ (g.growAttractor states lower fuel a).candidates) ∩ states) \
      (g.growAttractor states lower fuel a).candidates)).isEmpty = true := by
  induction fuel generalizing a with
  | zero =>
    rw [Nat.zero_add] at hfuel
    by_contra hne
    rw [Bool.not_eq_true] at hne
    exact absurd ((card_lt_of_round ha hne).trans_le (StateSet.card_members_le _))
      (Nat.not_lt.mpr hfuel)
  | succ fuel ih =>
    rw [growAttractor]
    split
    · assumption
    · rename_i hne
      rw [Bool.not_eq_true] at hne
      have hlt := card_lt_of_round ha hne
      exact ih (ha.union (current_domain _)) (by dsimp only; omega)

/-- **The rounds come to an end**: more of them change nothing. -/
theorem growAttractor_add {fuel : Nat} {a : Attractor sp} (ha : a.candidates.Current)
    (hfuel : sp.size ≤ fuel + a.candidates.members.card) (more : Nat) :
    g.growAttractor states lower (fuel + more) a = g.growAttractor states lower fuel a := by
  induction fuel generalizing a with
  | zero =>
    have hend := @domain_growAttractor_isEmpty sp g states lower 0 a ha hfuel
    rw [growAttractor] at hend ⊢
    cases more with
    | zero => rfl
    | succ more => rw [Nat.zero_add, growAttractor, if_pos hend]
  | succ fuel ih =>
    rw [Nat.succ_add, growAttractor, growAttractor]
    split
    · rfl
    · rename_i hne
      rw [Bool.not_eq_true] at hne
      have hlt := card_lt_of_round ha hne
      exact ih (ha.union (current_domain _)) (by dsimp only; omega)

/-- **No state is left out from which the environment forces the candidates or a lower rank.** -/
theorem mem_candidates_of_forcing {v : Nat} (hv : v ∈ states)
    (hforce : v ∈ g.forcing (lower ∪ (g.attractor states lower).candidates)) :
    v ∈ (g.attractor states lower).candidates := by
  have hstart : (⟨∅, ∅⟩ : Attractor sp).candidates.Current := .empty _
  have hend : (g.domain ((g.forcing (lower ∪ (g.attractor states lower).candidates) ∩ states) \
      (g.attractor states lower).candidates)).isEmpty = true :=
    domain_growAttractor_isEmpty hstart (Nat.le_add_right _ _)
  by_contra hno
  exact StateSet.isEmpty_iff.mp hend v
    (mem_domain_of_mem (Attracts.mem_choices.mpr ⟨hforce, hv, hno⟩))

theorem attracts_attractor (hg : g.Rowless) (hs : states.Untagged g.marker)
    (hl : lower.Untagged g.marker) : g.Attracts states lower (g.attractor states lower) :=
  growAttractor_induction (fun _ ha ↦ ha.grow hg hs hl) _ (.empty states lower)

/-! ## The order of the rounds -/

/-- The rounds in which the states of an attractor were taken in, rows aside, are numbered below
`n`: an answer to a committed choice lies in `lower` or was taken in before. The choices are
committed with all their answers. -/
structure Rounds (g : Game sp) (lower : StateSet sp) (a : Attractor sp) (round : Nat → Nat)
    (n : Nat) : Prop where
  round_lt : ∀ i ∈ a.candidates, round (sp.bare g.marker i) < n
  falls : ∀ v ∈ a.inner, ∀ w ∈ g.sysTrans, g.SameChoice v w → sp.next w ∈ lower ∨
    (sp.next w ∈ a.candidates ∧
      round (sp.bare g.marker (sp.next w)) < round (sp.bare g.marker v))
  answered : ∀ v ∈ a.inner, ∀ w ∈ g.envTrans, g.SameChoice v w → w ∈ a.inner

theorem Rounds.empty (lower : StateSet sp) : g.Rounds lower ⟨∅, ∅⟩ (fun _ ↦ 0) 0 where
  round_lt := fun i hi ↦ absurd hi (StateSet.not_mem_empty i)
  falls := fun v hv ↦ absurd hv (StateSet.not_mem_empty v)
  answered := fun v hv ↦ absurd hv (StateSet.not_mem_empty v)

/-- One round more: what it takes in gets the number `n`. -/
theorem Rounds.grow (hs : states.Untagged g.marker) (hl : lower.Current) {a : Attractor sp}
    (ha : g.Attracts states lower a) {round : Nat → Nat} {n : Nat}
    (h : g.Rounds lower a round n) :
    let choices := (g.forcing (lower ∪ a.candidates) ∩ states) \ a.candidates
    g.Rounds lower ⟨a.candidates ∪ g.domain choices, a.inner ∪ g.determinize choices⟩
      (fun b ↦ if b ∈ a.candidates then round b else n) (n + 1) := by
  intro choices
  have hold : ∀ {i}, i ∈ a.candidates →
      (if sp.bare g.marker i ∈ a.candidates then round (sp.bare g.marker i) else n)
        = round (sp.bare g.marker i) := fun hi ↦
    if_pos ((ha.untagged.mem_iff_of_bare_eq (sp.bare_lt _ _) (StateSet.lt_size hi)
      (sp.bare_bare _ _)).mpr hi)
  have hnew : ∀ {i}, i < sp.size → i ∉ a.candidates →
      (if sp.bare g.marker i ∈ a.candidates then round (sp.bare g.marker i) else n) = n :=
    fun hlt hi ↦ if_neg fun hb ↦
      hi ((ha.untagged.mem_iff_of_bare_eq (sp.bare_lt _ _) hlt (sp.bare_bare _ _)).mp hb)
  refine ⟨fun i hi ↦ ?_, fun v hv w hw hvw ↦ ?_, fun v hv w hw hvw ↦ ?_⟩
  · by_cases hc : i ∈ a.candidates
    · rw [hold hc]
      exact Nat.lt_succ_of_lt (h.round_lt i hc)
    · rw [hnew (StateSet.lt_size hi) hc]
      exact Nat.lt_succ_self n
  · dsimp only
    rcases StateSet.mem_union.mp hv with hv | hv
    · refine (h.falls v hv w hw hvw).imp_right fun ⟨hnext, hlt⟩ ↦
        ⟨StateSet.mem_union.mpr (Or.inl hnext), ?_⟩
      rwa [hold hnext, hold (ha.domain_eq ▸ mem_domain_of_mem hv)]
    · obtain ⟨hforce, -, hvc⟩ := Attracts.mem_choices.mp (determinize_subset hv)
      have hnext := ((mem_forcing (hl.union ha.current)).mp hforce).2 w hw hvw
      refine (StateSet.mem_union.mp hnext).imp_right fun hc ↦
        ⟨StateSet.mem_union.mpr (Or.inl hc), ?_⟩
      rw [hold hc, hnew (StateSet.lt_size hv) hvc]
      exact h.round_lt _ hc
  · rcases StateSet.mem_union.mp hv with hv | hv
    · exact StateSet.mem_union.mpr (Or.inl (h.answered v hv w hw hvw))
    · refine StateSet.mem_union.mpr (Or.inr (mem_determinize_of_sameChoice hv ?_ hvw))
      obtain ⟨hforce, hvs, hvc⟩ := Attracts.mem_choices.mp (determinize_subset hv)
      have hwlt := StateSet.lt_size hw
      have hvlt := StateSet.lt_size hv
      refine Attracts.mem_choices.mpr ⟨?_, ?_, fun hwc ↦ hvc ?_⟩
      · exact (mem_forcing (hl.union ha.current)).mpr ⟨hw, fun u hu hwu ↦
          ((mem_forcing (hl.union ha.current)).mp hforce).2 u hu (hvw.trans hwu)⟩
      · exact (hs.current.mem_iff_of_now_eq hvlt hwlt hvw.now_eq).mp hvs
      · exact (ha.current.mem_iff_of_now_eq hvlt hwlt hvw.now_eq).mpr hwc

/-- **The committed choices of an attractor descend**, round by round. -/
theorem exists_rounds_attractor (hg : g.Rowless) (hs : states.Untagged g.marker)
    (hl : lower.Untagged g.marker) :
    ∃ round n, g.Rounds lower (g.attractor states lower) round n :=
  (growAttractor_induction
    (P := fun a ↦ g.Attracts states lower a ∧ ∃ round n, g.Rounds lower a round n)
    (fun _ ⟨ha, _, _, h⟩ ↦ ⟨ha.grow hg hs hl, _, _, h.grow hs hl.current ha⟩) _
    ⟨.empty states lower, _, _, .empty lower⟩).2

end JusticeViolation.Game

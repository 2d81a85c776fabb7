import JusticeViolation.Game.Moves
import JusticeViolation.Proofs.Game.Shape

/-!
# The moves of a game, by their members

A step is a valuation: its current copies are the state it starts in, the next copies of the
environment are the choice, and `next` is the state it ends in. Valuations that differ in nothing
but the next values of the system share a choice and are the answers to it.

For sets of states, `forcing target` holds the moves of the environment all of whose legal answers
end in `target`, `landing target` the choices with a legal answer that does, and `image` the ends of
all legal answers to the choices of some states.
-/

namespace JusticeViolation.Game

variable {sp : Space} {g : Game sp}

/-- Two valuations start in the same state with the same choice. -/
def SameChoice (g : Game sp) (v w : Nat) : Prop := sp.AgreeOff g.sysNextIds v w

theorem sysNextIds_mem {x : VarId} (h : x ∈ g.sysNextIds) :
    x ∈ sp.registry.ids ∧ x.isPrimed = true := sp.registry.mem_roleIds h

theorem envNextIds_mem {x : VarId} (h : x ∈ g.envNextIds) :
    x ∈ sp.registry.ids ∧ x.isPrimed = true := sp.registry.mem_roleIds h

theorem SameChoice.now_eq {v w : Nat} (h : g.SameChoice v w) : sp.now v = sp.now w := by
  refine Space.now_eq_iff.mpr fun x hx ↦ h x fun hmem ↦ ?_
  rw [(sysNextIds_mem hmem).2] at hx
  simp at hx

/-! ## Choices -/

theorem mem_domain {choices : StateSet sp} {i : Nat} :
    i ∈ g.domain choices ↔ i < sp.size ∧ ∃ v ∈ choices, sp.now v = sp.now i := by
  have hids : ∀ x ∈ sp.registry.primedIds, x ∈ sp.registry.ids := fun x hx ↦
    (sp.registry.mem_primedIds.mp hx).1
  rw [domain, StateSet.mem_forget hids]
  simp only [Space.agreeOff_primedIds_iff, eq_comm]

theorem mem_domain_of_mem {choices : StateSet sp} {v : Nat} (h : v ∈ choices) :
    v ∈ g.domain choices := mem_domain.mpr ⟨StateSet.lt_size h, v, h, rfl⟩

theorem current_domain (choices : StateSet sp) : (g.domain choices).Current := by
  intro i j hi hj hij
  rw [mem_domain, mem_domain, and_iff_right hi, and_iff_right hj, Space.now_eq_iff.mpr hij]

theorem mem_forcing {target : StateSet sp} (ht : target.Current) {v : Nat} :
    v ∈ g.forcing target ↔
      v ∈ g.envTrans ∧ ∀ w ∈ g.sysTrans, g.SameChoice v w → sp.next w ∈ target := by
  rw [forcing, StateSet.mem_inter, StateSet.mem_always fun x hx ↦ (sysNextIds_mem hx).1]
  refine and_congr_right fun hv ↦ ?_
  constructor
  · rintro ⟨-, h⟩ w hw hvw
    have himp := (StateSet.mem_implies.mp (h w (StateSet.lt_size hw) hvw)).2 hw
    exact (ht.mem_prime_iff (StateSet.lt_size hw)).mp himp
  · intro h
    refine ⟨StateSet.lt_size hv, fun w hlt hvw ↦ StateSet.mem_implies.mpr ⟨hlt, fun hw ↦ ?_⟩⟩
    exact (ht.mem_prime_iff hlt).mpr (h w hw hvw)

theorem mem_envTrans_of_mem_forcing {target : StateSet sp} {v : Nat} (h : v ∈ g.forcing target) :
    v ∈ g.envTrans := (StateSet.mem_inter.mp h).1

theorem mem_landing {target : StateSet sp} (ht : target.Current) {v : Nat} :
    v ∈ g.landing target ↔
      v < sp.size ∧ ∃ w ∈ g.sysTrans, g.SameChoice v w ∧ sp.next w ∈ target := by
  rw [landing, StateSet.mem_forget fun x hx ↦ (sysNextIds_mem hx).1]
  refine and_congr_right fun _ ↦ ?_
  constructor
  · rintro ⟨w, hw, hvw⟩
    obtain ⟨hs, hp⟩ := StateSet.mem_inter.mp hw
    exact ⟨w, hs, hvw, (ht.mem_prime_iff (StateSet.lt_size hs)).mp hp⟩
  · rintro ⟨w, hw, hvw, hn⟩
    exact ⟨w, StateSet.mem_inter.mpr ⟨hw, (ht.mem_prime_iff (StateSet.lt_size hw)).mpr hn⟩, hvw⟩

theorem mem_deadlocking {v : Nat} :
    v ∈ g.deadlocking ↔ v ∈ g.envTrans ∧ ∀ w ∈ g.sysTrans, ¬g.SameChoice v w := by
  rw [deadlocking, StateSet.mem_sdiff, StateSet.mem_forget fun x hx ↦ (sysNextIds_mem hx).1]
  refine and_congr_right fun hv ↦ ?_
  rw [and_iff_right (StateSet.lt_size hv), not_exists]
  simp only [not_and, SameChoice]

/-! ## Steps -/

theorem mem_image {states choices : StateSet sp} {j : Nat} :
    j ∈ g.image states choices ↔
      j < sp.size ∧ ∃ v ∈ states, v ∈ choices ∧ v ∈ g.sysTrans ∧ sp.next v = sp.now j := by
  rw [image, StateSet.mem_succ]
  simp only [StateSet.mem_inter, and_assoc]

theorem next_mem_image {states choices : StateSet sp} {v : Nat} (hs : v ∈ states)
    (hc : v ∈ choices) (hv : v ∈ g.sysTrans) : sp.next v ∈ g.image states choices :=
  mem_image.mpr ⟨sp.next_lt v, v, hs, hc, hv, (sp.now_next v).symm⟩

theorem current_image (states choices : StateSet sp) : (g.image states choices).Current :=
  StateSet.current_succ

theorem mem_trans {v : Nat} : v ∈ g.trans ↔ v ∈ g.envTrans ∧ v ∈ g.sysTrans := StateSet.mem_inter

/-! ## The row marker -/

namespace Shaped

variable (h : g.Shaped)

include h

theorem mem_tag {s : StateSet sp} {row i : Nat} (hrow : row < g.numRows) :
    i ∈ g.tag s row ↔ i ∈ s ∧ sp.digit i g.marker = row := by
  rw [tag, StateSet.mem_inter, StateSet.mem_literal h.marker_mem, h.rowMarkerWord_eq hrow]
  refine and_congr_right fun hi ↦ and_iff_right (StateSet.lt_size hi)

theorem current_tag {s : StateSet sp} (hs : s.Current) (row : Nat) : (g.tag s row).Current :=
  hs.inter (StateSet.DependsOn.literal h.marker_mem h.marker_current _)

theorem mem_entering {row v : Nat} (hrow : row < g.numRows) :
    v ∈ g.entering row ↔ v < sp.size ∧ sp.digit v g.marker.twin = row := by
  rw [entering, StateSet.mem_literal h.twin_marker_mem, h.rowMarkerWord_eq hrow]

/-- Stripping drops what a set says about the row marker. -/
theorem mem_strip_iff {s : StateSet sp} {j : Nat} :
    j ∈ g.strip s ↔ j < sp.size ∧ ∃ i ∈ s, sp.AgreeOff [g.marker] j i :=
  StateSet.mem_forget fun _ hx ↦ List.mem_singleton.mp hx ▸ h.marker_mem

theorem mem_strip {s : StateSet sp} (hs : s.Current) {j : Nat} :
    j ∈ g.strip s ↔ j < sp.size ∧ ∃ i ∈ s, sp.bare g.marker i = sp.bare g.marker j := by
  rw [h.mem_strip_iff]
  refine and_congr_right fun hj ↦ ?_
  constructor
  · rintro ⟨i, hi, hji⟩
    exact ⟨i, hi, hji.bare_eq.symm⟩
  · rintro ⟨i, hi, hij⟩
    -- the witness is `j` with the tag of `i`
    have htag : sp.digit i g.marker < sp.domainSize g.marker := sp.digit_lt i g.marker
    refine ⟨sp.put j g.marker (sp.digit i g.marker),
      (hs.mem_iff_of_now_eq (StateSet.lt_size hi) (Space.put_lt htag) ?_).mp hi, fun x hx ↦ ?_⟩
    · refine Space.now_eq_iff.mpr fun x hx ↦ ?_
      by_cases hxm : x = g.marker
      · rw [hxm, Space.digit_put_self htag]
      · rw [Space.digit_put_of_ne htag hxm]
        exact Space.bare_eq_iff.mp hij x hx hxm
    · exact (Space.digit_put_of_ne htag fun e ↦ hx (List.mem_singleton.mpr e)).symm

theorem mem_strip_of_mem {s : StateSet sp} (hs : s.Current) {i : Nat} (hi : i ∈ s) :
    i ∈ g.strip s := (h.mem_strip hs).mpr ⟨StateSet.lt_size hi, i, hi, rfl⟩

theorem strip_mono {s t : StateSet sp} (hst : ∀ i ∈ s, i ∈ t) {j : Nat} (hj : j ∈ g.strip s) :
    j ∈ g.strip t := by
  rw [h.mem_strip_iff] at hj ⊢
  obtain ⟨hlt, i, hi, hji⟩ := hj
  exact ⟨hlt, i, hst i hi, hji⟩

theorem untagged_strip {s : StateSet sp} (hs : s.Current) : (g.strip s).Untagged g.marker := by
  intro i j hi hj hij
  have hbare : sp.bare g.marker i = sp.bare g.marker j :=
    Space.bare_eq_iff.mpr fun x hx hm ↦ hij x ⟨hx, hm⟩
  rw [h.mem_strip hs, h.mem_strip hs, and_iff_right hi, and_iff_right hj, hbare]

/-- What a set holds under some tag, an untagged set around it holds. -/
theorem mem_of_mem_strip_of_subset {s t : StateSet sp} (hs : s.Current) (ht : t.Untagged g.marker)
    (hst : ∀ i ∈ s, i ∈ t) {j : Nat} (hj : j ∈ g.strip s) : j ∈ t := by
  obtain ⟨hlt, i, hi, hij⟩ := (h.mem_strip hs).mp hj
  exact (ht.mem_iff_of_bare_eq (StateSet.lt_size hi) hlt hij).mp (hst i hi)

/-- What a set holds under some tag, an untagged set apart from it does not hold. -/
theorem not_mem_of_mem_strip {s t : StateSet sp} (hs : s.Current) (ht : t.Untagged g.marker)
    (hst : ∀ i ∈ s, i ∉ t) {j : Nat} (hj : j ∈ g.strip s) : j ∉ t := by
  obtain ⟨hlt, i, hi, hij⟩ := (h.mem_strip hs).mp hj
  exact fun hjt ↦ hst i hi ((ht.mem_iff_of_bare_eq (StateSet.lt_size hi) hlt hij).mpr hjt)

/-- With one row there is one tag, so stripping adds nothing. -/
theorem mem_of_mem_strip (hone : g.numRows = 1) {s : StateSet sp} (hs : s.Current) {j : Nat}
    (hj : j ∈ g.strip s) : j ∈ s := by
  have hdigit : ∀ i, sp.digit i g.marker = 0 := fun i ↦
    Nat.lt_one_iff.mp (hone ▸ h.digit_marker_lt i)
  obtain ⟨hlt, i, hi, hij⟩ := (h.mem_strip hs).mp hj
  refine (hs i j (StateSet.lt_size hi) hlt fun x hx ↦ ?_).mp hi
  by_cases hxm : x = g.marker
  · rw [hxm, hdigit, hdigit]
  · exact Space.bare_eq_iff.mp hij x hx hxm

end Shaped

end JusticeViolation.Game

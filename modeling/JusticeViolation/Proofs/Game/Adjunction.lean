import JusticeViolation.Proofs.Forcing
import JusticeViolation.Proofs.StateSet.Symmetry

/-!
# Forcing and image are adjoint

`image` takes choices to the states in which the play can be after them, `forcing` takes a target to
the choices after which the play has to be in it. The two are computed in different ways, the one by
forgetting the present, the other by ruling out answers, yet each determines the other: choices of
the environment force a target exactly if their image lies in it. This needs that the choices leave
the answer open. With a relation that keeps some answers only, the image would be that of the answers
that are kept, while forcing speaks of all legal ones.

What does not force the complement of a target can land in it, whatever the target speaks of, and a
deadlock is what forces the empty target.
-/

namespace JusticeViolation

namespace Game

variable {sp : Space} {g : Game sp} {target choices : StateSet sp}

/-- Choices that do not depend on the next values of the system leave the answer open. -/
theorem answerFree_iff_dependsOn :
    g.AnswerFree choices ↔ choices.DependsOn (· ∉ g.sysNextIds) := by
  constructor
  · intro h i j hi hj hij
    exact ⟨fun hmem ↦ h i hmem j hj hij, fun hmem ↦ h j hmem i hi fun x hx ↦ (hij x hx).symm⟩
  · intro h v hv w hw hvw
    exact (h v w (StateSet.lt_size hv) hw hvw).mp hv

/-! ## The adjunction -/

/-- What forces a target leads into it. -/
theorem image_subset_of_subset_forcing (htarget : target.Current)
    (h : ∀ v ∈ choices, v ∈ g.forcing target) {states : StateSet sp} {j : Nat}
    (hj : j ∈ g.image states choices) : j ∈ target := by
  obtain ⟨hlt, v, -, hv, hsys, hnext⟩ := mem_image.mp hj
  have hforced : sp.next v ∈ target :=
    ((mem_forcing htarget).mp (h v hv)).2 v hsys (Space.AgreeOff.refl _ v)
  refine (htarget.mem_iff_of_now_eq (sp.next_lt v) hlt ?_).mp hforced
  rw [Space.now_next, hnext]

/-- What leads into a target, whatever the answer, forces it. -/
theorem subset_forcing_of_image_subset (htarget : target.Current)
    (henv : ∀ v ∈ choices, v ∈ g.envTrans) (hfree : g.AnswerFree choices)
    (h : ∀ j ∈ g.image .univ choices, j ∈ target) {v : Nat} (hv : v ∈ choices) :
    v ∈ g.forcing target := by
  refine (mem_forcing htarget).mpr ⟨henv v hv, fun w hsys hvw ↦ h _ ?_⟩
  have hlt := StateSet.lt_size hsys
  exact next_mem_image (StateSet.mem_univ.mpr hlt) (hfree v hv w hlt hvw) hsys

/-! ## Complements -/

/-- To force the complement is not to be able to land. -/
theorem forcing_compl (target : StateSet sp) :
    g.forcing target.compl = g.envTrans \ g.landing target := by
  have hids : ∀ x ∈ g.sysNextIds, x ∈ sp.registry.ids := fun x hx ↦ (sysNextIds_mem hx).1
  refine StateSet.ext_mem fun v ↦ ?_
  rw [forcing, landing, StateSet.mem_inter, StateSet.mem_sdiff, StateSet.prime_compl,
    StateSet.mem_always hids, StateSet.mem_forget hids]
  refine and_congr_right fun hv ↦ ?_
  rw [and_iff_right (StateSet.lt_size hv), and_iff_right (StateSet.lt_size hv)]
  constructor
  · rintro h ⟨w, hw, hvw⟩
    obtain ⟨hsys, hland⟩ := StateSet.mem_inter.mp hw
    have hlt := StateSet.lt_size hsys
    exact (StateSet.mem_compl.mp ((StateSet.mem_implies.mp (h w hlt hvw)).2 hsys)).2 hland
  · intro h w hlt hvw
    refine StateSet.mem_implies.mpr ⟨hlt, fun hsys ↦ StateSet.mem_compl.mpr ⟨hlt, fun hland ↦ ?_⟩⟩
    exact h ⟨w, StateSet.mem_inter.mpr ⟨hsys, hland⟩, hvw⟩

/-- A deadlock forces anything, even what cannot be. -/
theorem deadlocking_eq_forcing_empty : g.deadlocking = g.forcing ∅ := by
  refine StateSet.ext_mem fun v ↦ ?_
  rw [mem_deadlocking, mem_forcing (.empty _)]
  simp only [StateSet.not_mem_empty, imp_false]

/-- **Forcing and image are adjoint.** Choices of the environment that leave the answer open force a
set of states exactly if they lead nowhere else. To force the complement of a target, whatever it
speaks of, is not to be able to land in the target, and to be in a deadlock is to force nothing at
all. -/
theorem forcing_adjoint_image (g : Game sp) :
    (∀ target choices : StateSet sp, target.Current → (∀ v ∈ choices, v ∈ g.envTrans) →
      choices.DependsOn (· ∉ g.sysNextIds) →
      ((∀ v ∈ choices, v ∈ g.forcing target) ↔ ∀ j ∈ g.image .univ choices, j ∈ target)) ∧
    (∀ target, g.forcing target.compl = g.envTrans \ g.landing target) ∧
    g.deadlocking = g.forcing ∅ := by
  refine ⟨fun target choices htarget henv hdep ↦ ⟨fun h j ↦ ?_, fun h v ↦ ?_⟩, forcing_compl,
    deadlocking_eq_forcing_empty⟩
  · exact image_subset_of_subset_forcing htarget h
  · exact subset_forcing_of_image_subset htarget henv (answerFree_iff_dependsOn.mpr hdep) h

/-- The move of the slope that clears the bit of the environment, in `00` or in `10`. -/
def clearing (bit : Nat) : StateSet bits := .literal ⟨0⟩ bit ∩ .literal ⟨2⟩ 0 ∩ .literal ⟨1⟩ 0

theorem dependsOn_clearing (bit : Nat) : (clearing bit).DependsOn (· ∉ slope.sysNextIds) :=
  ((StateSet.DependsOn.literal (by decide) (by decide) bit).inter
    (.literal (by decide) (by decide) 0)).inter (.literal (by decide) (by decide) 0)

/-- In `10` the only answer to this move sets the bit of the system. In `00` the system may do so or
not, and the move does not force it. -/
theorem forcing_adjoint_image_slope :
    (∀ v ∈ clearing 1, v ∈ slope.forcing (.literal ⟨2⟩ 1)) ∧
      (¬∀ v ∈ clearing 0, v ∈ slope.forcing (.literal ⟨2⟩ 1)) ∧
      (∃ j ∈ slope.image .univ (clearing 0), j ∈ (.literal ⟨2⟩ 1 : StateSet bits)) ∧
      slope.deadlocking = slope.forcing ∅ := by
  obtain ⟨hadjoint, -, hdead⟩ := forcing_adjoint_image slope
  have hcurrent : (.literal ⟨2⟩ 1 : StateSet bits).Current :=
    .literal (by decide) (by decide) 1
  have hiff := fun bit henv ↦
    hadjoint (.literal ⟨2⟩ 1) (clearing bit) hcurrent henv (dependsOn_clearing bit)
  have henv : ∀ bit ∈ [0, 1], ∀ v ∈ clearing bit, v ∈ slope.envTrans := fun bit hbit ↦
    StateSet.subset_iff.mp ((by decide +kernel :
      ∀ bit ∈ [0, 1], (clearing bit).subset slope.envTrans = true) bit hbit)
  refine ⟨(hiff 1 (henv 1 (by simp))).mpr ?_, fun hforce ↦ ?_, ⟨4, by decide +kernel⟩, hdead⟩
  · exact StateSet.subset_iff.mp (by decide +kernel)
  · exact absurd ((hiff 0 (henv 0 (by simp))).mp hforce 0 (by decide +kernel)) (by decide +kernel)

end Game

end JusticeViolation

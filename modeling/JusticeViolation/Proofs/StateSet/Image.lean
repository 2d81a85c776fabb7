import JusticeViolation.Proofs.Game.Solution
import JusticeViolation.Proofs.StateSet.Dependence

/-!
# Successors and predecessors

The successors of a set are found by forgetting the present and then exchanging the twins, its
predecessors by exchanging the twins and then forgetting the next state. Read as relations the two
are the same: what connects a valuation `u` of the steps to another is, on one side, the present
that `u` shares with it and, on the other, the exchanged `u`. Sets that speak of next-state copies
are told apart by this: a predecessor asks for the exchanged `u` as a whole, a successor for what
`u` says about the next state and nothing else.

Between sets of states the difference is gone, and the two images are dual.
-/

namespace JusticeViolation.StateSet

variable {sp : Space} {s steps target : StateSet sp} {i : Nat}

/-- **A successor is what a step leads to.** -/
theorem mem_succ_iff_digits : i ∈ s.succ steps ↔ i < sp.size ∧ ∃ u ∈ s, u ∈ steps ∧
    ∀ x, x.isPrimed = false → sp.digit u x.twin = sp.digit i x := by
  rw [mem_succ]
  simp only [Space.next_eq_now_iff]

/-- **A predecessor is where a step into the target begins.** -/
theorem mem_pred_iff_digits : i ∈ pred steps target ↔ i < sp.size ∧ ∃ u ∈ steps,
    (∀ x, x.isPrimed = false → sp.digit u x = sp.digit i x) ∧ sp.swap u ∈ target := by
  have hids : ∀ x ∈ sp.registry.primedIds, x ∈ sp.registry.ids := fun x hx ↦
    (sp.registry.mem_primedIds.mp hx).1
  rw [pred, mem_forget hids]
  refine and_congr_right fun _ ↦ exists_congr fun u ↦ ?_
  rw [mem_inter, mem_prime, Space.agreeOff_primedIds_iff, Space.now_eq_iff]
  constructor
  · rintro ⟨⟨hsteps, -, htarget⟩, hnow⟩
    exact ⟨hsteps, fun x hx ↦ (hnow x hx).symm, htarget⟩
  · rintro ⟨hsteps, hnow, htarget⟩
    exact ⟨⟨hsteps, lt_size hsteps, htarget⟩, fun x hx ↦ (hnow x hx).symm⟩

/-- A step that leads from a set of states into another shows at both ends. -/
theorem meets_succ_iff_exists (htarget : target.Current) :
    (s.succ steps).meets target = true ↔ ∃ u ∈ s, u ∈ steps ∧ sp.swap u ∈ target := by
  rw [meets_iff]
  constructor
  · rintro ⟨i, hi, hit⟩
    obtain ⟨hlt, u, hus, hu, hnext⟩ := mem_succ.mp hi
    exact ⟨u, hus, hu, (htarget.mem_iff_of_now_eq (sp.swap_lt u) hlt hnext).mpr hit⟩
  · rintro ⟨u, hus, hu, htu⟩
    exact ⟨sp.swap u, mem_succ.mpr ⟨sp.swap_lt u, u, hus, hu, rfl⟩, htu⟩

theorem meets_pred_iff_exists (hs : s.Current) :
    s.meets (pred steps target) = true ↔ ∃ u ∈ s, u ∈ steps ∧ sp.swap u ∈ target := by
  rw [meets_iff]
  constructor
  · rintro ⟨i, hi, hpred⟩
    obtain ⟨hlt, u, hu, hnow, htu⟩ := mem_pred_iff_digits.mp hpred
    exact ⟨u, (hs u i (lt_size hu) hlt hnow).mpr hi, hu, htu⟩
  · rintro ⟨u, hus, hu, htu⟩
    exact ⟨u, hus, mem_pred_iff_digits.mpr ⟨lt_size hu, u, hu, fun _ _ ↦ rfl, htu⟩⟩

/-- **Successors and predecessors are dual.** Both images read the steps as the same relation, and
between sets of states one meets its target exactly if the other meets its source. -/
theorem succ_pred_dual (s steps target : StateSet sp) :
    (∀ i, i ∈ s.succ steps ↔ i < sp.size ∧ ∃ u ∈ s, u ∈ steps ∧
      ∀ x, x.isPrimed = false → sp.digit u x.twin = sp.digit i x) ∧
    (∀ i, i ∈ pred steps target ↔ i < sp.size ∧ ∃ u ∈ steps,
      (∀ x, x.isPrimed = false → sp.digit u x = sp.digit i x) ∧ sp.swap u ∈ target) ∧
    (s.Current → target.Current →
      (s.succ steps).meets target = s.meets (pred steps target)) := by
  refine ⟨fun _ ↦ mem_succ_iff_digits, fun _ ↦ mem_pred_iff_digits, fun hs htarget ↦ ?_⟩
  rw [Bool.eq_iff_iff, meets_succ_iff_exists htarget, meets_pred_iff_exists hs]

/-- The steps of `bits` after which both bits are the same. -/
def copying : StateSet bits :=
  .literal ⟨1⟩ 0 ∩ .literal ⟨3⟩ 0 ∪ .literal ⟨1⟩ 1 ∩ .literal ⟨3⟩ 1

/-- From where the first bit is set, copying steps lead to where the second one is, and never to
where the bits differ. A set that speaks of the next value of a bit is told apart: all that leads
out of it sets the bit, yet whatever its present, there is a step that clears it. -/
theorem succ_pred_dual_copying :
    let set : StateSet bits := .literal ⟨0⟩ 1
    let other : StateSet bits := .literal ⟨2⟩ 1
    set.Current ∧ other.Current ∧ set.meets (pred copying other) = true ∧
      set.meets (pred copying (other \ set)) = false ∧
      (succ (literal ⟨1⟩ 1 : StateSet bits) copying).meets set.compl = false ∧
      (literal ⟨1⟩ 1 : StateSet bits).meets (pred copying set.compl) = true := by
  intro set other
  have hset : set.Current := .literal (by decide) (by decide) 1
  have hother : other.Current := .literal (by decide) (by decide) 1
  refine ⟨hset, hother, ?_, ?_, by decide +kernel, by decide +kernel⟩
  · rw [← (succ_pred_dual set copying other).2.2 hset hother]
    decide +kernel
  · rw [← (succ_pred_dual set copying (other \ set)).2.2 hset (hother.sdiff hset)]
    decide +kernel

end JusticeViolation.StateSet

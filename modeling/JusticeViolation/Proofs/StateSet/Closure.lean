import JusticeViolation.Game.Moves
import JusticeViolation.Proofs.StateSet.Dependence

/-!
# Closures of sets of valuations

`closure step s` repeats a step a fixed number of times. That this number is enough is a matter of
counting: every round but the last adds a valuation, and there are only so many. So the closure is
closed under the step, and whatever is kept by a single round holds of it.
-/

namespace JusticeViolation.StateSet

variable {sp : Space}

/-! ## Counting members -/

/-- The members of a set. -/
def members (s : StateSet sp) : Finset Nat := (Finset.range sp.size).filter (· ∈ s)

@[simp] theorem mem_members {s : StateSet sp} {i : Nat} : i ∈ s.members ↔ i ∈ s := by
  rw [members, Finset.mem_filter, Finset.mem_range]
  exact ⟨fun h ↦ h.2, fun h ↦ ⟨lt_size h, h⟩⟩

theorem card_members_le (s : StateSet sp) : s.members.card ≤ sp.size := by
  calc s.members.card ≤ (Finset.range sp.size).card := Finset.card_filter_le _ _
    _ = sp.size := Finset.card_range _

theorem card_members_lt {s t : StateSet sp} (hsub : ∀ i, i ∈ s → i ∈ t) {i : Nat} (hi : i ∈ t)
    (hs : i ∉ s) : s.members.card < t.members.card := by
  have hmem : s.members ⊆ t.members := fun j hj ↦ mem_members.mpr (hsub j (mem_members.mp hj))
  exact Finset.card_lt_card ((Finset.ssubset_iff_of_subset hmem).mpr
    ⟨i, mem_members.mpr hi, fun h ↦ hs (mem_members.mp h)⟩)

/-- A set with as many members as there are valuations holds them all. -/
theorem mem_of_card_members {s : StateSet sp} (h : sp.size ≤ s.members.card) {i : Nat}
    (hi : i < sp.size) : i ∈ s := by
  by_contra hs
  have hlt := card_members_lt (fun j hj ↦ mem_univ.mpr (lt_size hj)) (mem_univ.mpr hi) hs
  exact absurd (hlt.trans_le (card_members_le _)) (Nat.not_lt.mpr h)

/-! ## Rounds -/

variable {step : StateSet sp → StateSet sp}

/-- Whatever one round keeps holds of every number of rounds. -/
theorem saturate_induction {P : StateSet sp → Prop} (hstep : ∀ s, P s → P (s ∪ step s))
    (fuel : Nat) {s : StateSet sp} (hs : P s) : P (saturate step fuel s) := by
  induction fuel generalizing s with
  | zero => exact hs
  | succ fuel ih =>
    rw [saturate]
    split
    · exact hs
    · exact ih (hstep s hs)

private theorem step_saturate_subset {fuel : Nat} {s : StateSet sp}
    (h : sp.size ≤ fuel + s.members.card) {i : Nat} (hi : i ∈ step (saturate step fuel s)) :
    i ∈ saturate step fuel s := by
  induction fuel generalizing s with
  | zero =>
    rw [Nat.zero_add] at h
    exact mem_of_card_members h (lt_size hi)
  | succ fuel ih =>
    rw [saturate] at hi ⊢
    split at hi
    · rename_i heq
      rw [if_pos heq, ← heq]
      exact mem_union.mpr (Or.inr hi)
    · rename_i hne
      rw [if_neg hne]
      refine ih ?_ hi
      -- the round has added a valuation
      obtain ⟨j, hj, hjs⟩ : ∃ j, j ∈ s ∪ step s ∧ j ∉ s := by
        by_contra hno
        push Not at hno
        exact hne (ext_mem fun j ↦ ⟨hno j, fun hj ↦ mem_union.mpr (Or.inl hj)⟩)
      have hlt := card_members_lt (fun k hk ↦ mem_union.mpr (Or.inl hk)) hj hjs
      omega

/-! ## Closures -/

theorem closure_induction {P : StateSet sp → Prop} (hstep : ∀ s, P s → P (s ∪ step s))
    {s : StateSet sp} (hs : P s) : P (closure step s) := saturate_induction hstep sp.size hs

theorem subset_closure {s : StateSet sp} {i : Nat} (hi : i ∈ s) : i ∈ closure step s :=
  closure_induction (P := fun t ↦ i ∈ t) (fun _ ht ↦ mem_union.mpr (Or.inl ht)) hi

/-- **A closure is closed.** -/
theorem step_closure_subset {s : StateSet sp} {i : Nat} (hi : i ∈ step (closure step s)) :
    i ∈ closure step s := step_saturate_subset (Nat.le_add_right _ _) hi

end JusticeViolation.StateSet

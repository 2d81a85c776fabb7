import JusticeViolation.Proofs.StateSet.Dependence
import Mathlib.Data.LawfulXor.Basic

/-!
# Sampling a set

`m &&& (m - 1)` differs from a mask `m` in bits of `m` alone, and it does differ, so the number that
`least?` answers is a member. As subtracting 1 clears no bit above a member, it is the least one.
The cube around a sample thus meets the set that was sampled, and it speaks of nothing but the
sampled copies.
-/

namespace JusticeViolation

namespace Mask

/-- What `least?` answers is a bit of `m` that subtracting 1 clears. -/
private theorem cleared_of_least?_eq_some {m i : Nat} (h : least? m = some i) :
    m.testBit i = true ∧ (m - 1).testBit i = false := by
  unfold least? at h
  split at h
  · simp at h
  · rename_i hne
    obtain rfl : (m ^^^ (m &&& (m - 1))).log2 = i := Option.some.inj h
    have hdiff : m ^^^ (m &&& (m - 1)) ≠ 0 := by
      intro hzero
      have heq := xor_cancel_left m (m &&& (m - 1))
      rw [hzero, Nat.xor_zero] at heq
      have hle : m &&& (m - 1) ≤ m - 1 := Nat.and_le_right
      omega
    have hbit := Nat.testBit_log2 hdiff
    generalize (m ^^^ (m &&& (m - 1))).log2 = i at hbit
    rw [Nat.testBit_xor, Nat.testBit_and] at hbit
    cases hm : m.testBit i with
    | true =>
      rw [hm, Bool.true_and, Bool.true_xor, Bool.not_eq_true'] at hbit
      exact ⟨rfl, hbit⟩
    | false =>
      rw [hm] at hbit
      simp at hbit

/-- What `least?` answers is a member. -/
theorem testBit_of_least?_eq_some {m i : Nat} (h : least? m = some i) : m.testBit i = true :=
  (cleared_of_least?_eq_some h).1

/-- Subtracting 1 borrows from no bit above a member. -/
theorem testBit_sub_one_of_lt {m i j : Nat} (hj : m.testBit j = true) (hji : j < i) :
    (m - 1).testBit i = m.testBit i := by
  have hrest : m % 2 ^ i ≠ 0 := by
    intro hzero
    have hbit : (m % 2 ^ i).testBit j = true := by
      rw [Nat.testBit_mod_two_pow, hj, decide_eq_true hji, Bool.true_and]
    rw [hzero, Nat.zero_testBit] at hbit
    cases hbit
  have hquotient : (m - 1) / 2 ^ i = m / 2 ^ i := by
    have hpred : m - 1 = 2 ^ i * (m / 2 ^ i) + (m % 2 ^ i - 1) := by
      rw [← Nat.add_sub_assoc (Nat.pos_of_ne_zero hrest), Nat.div_add_mod]
    have hlt : m % 2 ^ i - 1 < 2 ^ i :=
      Nat.lt_of_le_of_lt (Nat.sub_le _ _) (Nat.mod_lt m (Nat.two_pow_pos i))
    rw [hpred, Nat.mul_add_div (Nat.two_pow_pos i), Nat.div_eq_of_lt hlt, Nat.add_zero]
  rw [Nat.testBit_eq_decide_div_mod_eq, hquotient, ← Nat.testBit_eq_decide_div_mod_eq]

/-- What `least?` answers is the least member. -/
theorem le_of_least?_eq_some {m i j : Nat} (h : least? m = some i) (hj : m.testBit j = true) :
    i ≤ j := by
  by_contra hlt
  obtain ⟨hi, hcleared⟩ := cleared_of_least?_eq_some h
  rw [testBit_sub_one_of_lt hj (Nat.not_le.mp hlt), hi] at hcleared
  cases hcleared

end Mask

namespace StateSet

variable {sp : Space} {s c : StateSet sp} {xs : List VarId}

theorem zip_digits (i : Nat) (xs : List VarId) :
    xs.zip (sp.digits i xs) = xs.map fun x ↦ (x, sp.digit i x) := by
  induction xs with
  | nil => rfl
  | cons x xs ih =>
    rw [List.map_cons, ← ih]
    rfl

/-- The cube around a valuation holds what agrees with it. -/
theorem mem_cube_digits (hxs : ∀ x ∈ xs, x ∈ sp.registry.ids) {i j : Nat} :
    j ∈ (cube (xs.zip (sp.digits i xs)) : StateSet sp) ↔
      j < sp.size ∧ ∀ x ∈ xs, sp.digit j x = sp.digit i x := by
  rw [cube, mem_interAll, zip_digits, List.map_map]
  refine and_congr_right fun hj ↦ ?_
  rw [List.forall_mem_map]
  refine forall₂_congr fun x hx ↦ ?_
  rw [Function.comp_apply, mem_literal (hxs x hx), and_iff_right hj]

/-- **The cube of a sample** meets the set it is taken from. -/
theorem exists_of_sampleCube?_eq_some (hxs : ∀ x ∈ xs, x ∈ sp.registry.ids)
    (h : s.sampleCube? xs = some c) :
    ∃ i ∈ s, ∀ j, j ∈ c ↔ j < sp.size ∧ ∀ x ∈ xs, sp.digit j x = sp.digit i x := by
  rw [sampleCube?, sample?, Option.map_map, Option.map_eq_some_iff] at h
  obtain ⟨i, hi, rfl⟩ := h
  exact ⟨i, Mask.testBit_of_least?_eq_some hi, fun j ↦ mem_cube_digits hxs⟩

end StateSet

end JusticeViolation

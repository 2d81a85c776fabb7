/-!
# Sets of numbers as bit masks

A finite set of natural numbers is kept as one number whose bit `i` says whether `i` is in the
set. Boolean operations are then operations on words of the machine, and equal sets are equal
numbers. This module adds what is needed beyond the bitwise operations of the core library: the
union of a family of masks, the union of shifts at regular distances, the number of members and
the least member.

Everything is by structural recursion on a small number, so that closed instances can also be
evaluated by the kernel.
-/

namespace JusticeViolation.Mask

/-- The union of `f 0`, …, `f (n - 1)`. -/
def unionRange : Nat → (Nat → Nat) → Nat
  | 0, _ => 0
  | n + 1, f => unionRange n f ||| f n

theorem testBit_unionRange {n : Nat} {f : Nat → Nat} {i : Nat} :
    (unionRange n f).testBit i = true ↔ ∃ k, k < n ∧ (f k).testBit i = true := by
  induction n with
  | zero => simp [unionRange]
  | succ n ih =>
    simp only [unionRange, Nat.testBit_or, Bool.or_eq_true, ih]
    constructor
    · rintro (⟨k, hk, h⟩ | h)
      · exact ⟨k, by omega, h⟩
      · exact ⟨n, by omega, h⟩
    · rintro ⟨k, hk, h⟩
      rcases Nat.lt_succ_iff_lt_or_eq.mp hk with hlt | rfl
      · exact Or.inl ⟨k, hlt, h⟩
      · exact Or.inr h

/-! ## Shifts at regular distances

The union of many shifts of a mask is found by doubling: `2 ^ level` shifts are two groups of half
as many, and any number of shifts is covered by two groups of a power of two that may overlap.
-/

/-- `2 ^ level` copies of `m`, each `distance` above the one before. -/
def tilePower (m distance : Nat) : Nat → Nat
  | 0 => m
  | level + 1 =>
    let half := tilePower m distance level
    half ||| half <<< (Nat.pow 2 level * distance)

/-- `count` copies of `m`, each `distance` above the one before. -/
def tile (m distance count : Nat) : Nat :=
  if count = 0 then 0
  else
    let power := tilePower m distance count.log2
    power ||| power <<< ((count - Nat.pow 2 count.log2) * distance)

/-- The union of `2 ^ level` copies of `m`, each `distance` below the one before. -/
def foldPower (m distance : Nat) : Nat → Nat
  | 0 => m
  | level + 1 =>
    let half := foldPower m distance level
    half ||| half >>> (Nat.pow 2 level * distance)

/-- The union of `count` copies of `m`, each `distance` below the one before. -/
def fold (m distance count : Nat) : Nat :=
  if count = 0 then 0
  else
    let power := foldPower m distance count.log2
    power ||| power >>> ((count - Nat.pow 2 count.log2) * distance)

theorem testBit_tilePower {m distance level i : Nat} :
    (tilePower m distance level).testBit i = true ↔
      ∃ k, k < Nat.pow 2 level ∧ k * distance ≤ i ∧ m.testBit (i - k * distance) = true := by
  induction level generalizing i with
  | zero =>
    constructor
    · exact fun h ↦ ⟨0, by simp, by simp, by simpa [tilePower] using h⟩
    · rintro ⟨k, hk, -, h⟩
      obtain rfl : k = 0 := by simpa using hk
      simpa [tilePower] using h
  | succ level ih =>
    have hpow : Nat.pow 2 (level + 1) = Nat.pow 2 level * 2 := rfl
    simp only [tilePower, Nat.testBit_or, Bool.or_eq_true, Nat.testBit_shiftLeft, Bool.and_eq_true,
      decide_eq_true_eq, ih]
    constructor
    · rintro (⟨k, hk, hi, h⟩ | ⟨hle, k, hk, hi, h⟩)
      · exact ⟨k, by omega, hi, h⟩
      · refine ⟨Nat.pow 2 level + k, by omega, ?_, ?_⟩
        · rw [Nat.add_mul]; omega
        · rwa [Nat.add_mul, ← Nat.sub_sub]
    · rintro ⟨k, hk, hi, h⟩
      by_cases hlt : k < Nat.pow 2 level
      · exact Or.inl ⟨k, hlt, hi, h⟩
      · obtain ⟨j, rfl⟩ := Nat.exists_eq_add_of_le (Nat.le_of_not_lt hlt)
        rw [Nat.add_mul] at hi h
        exact Or.inr ⟨by omega, j, by omega, by omega, by rwa [Nat.sub_sub]⟩

theorem testBit_foldPower {m distance level i : Nat} :
    (foldPower m distance level).testBit i = true ↔
      ∃ k, k < Nat.pow 2 level ∧ m.testBit (i + k * distance) = true := by
  induction level generalizing i with
  | zero =>
    constructor
    · exact fun h ↦ ⟨0, by simp, by simpa [foldPower] using h⟩
    · rintro ⟨k, hk, h⟩
      obtain rfl : k = 0 := by simpa using hk
      simpa [foldPower] using h
  | succ level ih =>
    have hpow : Nat.pow 2 (level + 1) = Nat.pow 2 level * 2 := rfl
    simp only [foldPower, Nat.testBit_or, Bool.or_eq_true, Nat.testBit_shiftRight, ih]
    constructor
    · rintro (⟨k, hk, h⟩ | ⟨k, hk, h⟩)
      · exact ⟨k, by omega, h⟩
      · refine ⟨Nat.pow 2 level + k, by omega, ?_⟩
        rwa [Nat.add_mul, ← Nat.add_assoc, Nat.add_comm i]
    · rintro ⟨k, hk, h⟩
      by_cases hlt : k < Nat.pow 2 level
      · exact Or.inl ⟨k, hlt, h⟩
      · obtain ⟨j, rfl⟩ := Nat.exists_eq_add_of_le (Nat.le_of_not_lt hlt)
        refine Or.inr ⟨j, by omega, ?_⟩
        rwa [Nat.add_mul, ← Nat.add_assoc, Nat.add_comm i] at h

private theorem exists_lt_iff {p : Nat → Prop} {count : Nat} (hc : count ≠ 0) :
    (∃ k, k < count ∧ p k) ↔
      (∃ k, k < Nat.pow 2 count.log2 ∧ p k) ∨
        ∃ k, k < Nat.pow 2 count.log2 ∧ p (count - Nat.pow 2 count.log2 + k) := by
  have hle : Nat.pow 2 count.log2 ≤ count := Nat.log2_self_le hc
  have hlt : count < Nat.pow 2 count.log2 * 2 := Nat.lt_log2_self
  constructor
  · rintro ⟨k, hk, h⟩
    by_cases hs : k < Nat.pow 2 count.log2
    · exact Or.inl ⟨k, hs, h⟩
    · refine Or.inr ⟨k - (count - Nat.pow 2 count.log2), by omega, ?_⟩
      rwa [Nat.add_sub_cancel' (by omega)]
  · rintro (⟨k, hk, h⟩ | ⟨k, hk, h⟩)
    · exact ⟨k, by omega, h⟩
    · exact ⟨_, by omega, h⟩

theorem testBit_tile {m distance count i : Nat} :
    (tile m distance count).testBit i = true ↔
      ∃ k, k < count ∧ k * distance ≤ i ∧ m.testBit (i - k * distance) = true := by
  by_cases hc : count = 0
  · simp [tile, hc]
  · rw [exists_lt_iff hc]
    simp only [tile, hc, if_false, Nat.testBit_or, Bool.or_eq_true, Nat.testBit_shiftLeft,
      Bool.and_eq_true, decide_eq_true_eq, testBit_tilePower]
    refine or_congr Iff.rfl ⟨?_, ?_⟩
    · rintro ⟨hle, k, hk, hi, h⟩
      refine ⟨k, hk, ?_, ?_⟩
      · rw [Nat.add_mul]; omega
      · rwa [Nat.add_mul, ← Nat.sub_sub]
    · rintro ⟨k, hk, hi, h⟩
      rw [Nat.add_mul] at hi h
      exact ⟨by omega, k, hk, by omega, by rwa [Nat.sub_sub]⟩

theorem testBit_fold {m distance count i : Nat} :
    (fold m distance count).testBit i = true ↔
      ∃ k, k < count ∧ m.testBit (i + k * distance) = true := by
  by_cases hc : count = 0
  · simp [fold, hc]
  · rw [exists_lt_iff hc]
    simp only [fold, hc, if_false, Nat.testBit_or, Bool.or_eq_true, Nat.testBit_shiftRight,
      testBit_foldPower]
    refine or_congr Iff.rfl ⟨?_, ?_⟩
    · rintro ⟨k, hk, h⟩
      refine ⟨k, hk, ?_⟩
      rwa [Nat.add_mul, ← Nat.add_assoc, Nat.add_comm i]
    · rintro ⟨k, hk, h⟩
      refine ⟨k, hk, ?_⟩
      rwa [Nat.add_mul, ← Nat.add_assoc, Nat.add_comm i] at h

/-! ## Members -/

/-- The numbers below `n`. -/
def below (n : Nat) : Nat := Nat.pow 2 n - 1

/-- The number of members below `2 ^ level`, by halving. -/
def card : Nat → Nat → Nat
  | 0, m => m % 2
  | level + 1, m =>
    if m = 0 then 0
    else card level (m % Nat.pow 2 (Nat.pow 2 level)) + card level (m >>> Nat.pow 2 level)

/-- The least member: `m &&& (m - 1)` lacks it and nothing else. -/
def least? (m : Nat) : Option Nat :=
  if m = 0 then none else some (m ^^^ (m &&& (m - 1))).log2

end JusticeViolation.Mask

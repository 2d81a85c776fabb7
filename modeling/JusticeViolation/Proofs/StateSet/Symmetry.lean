import JusticeViolation.Proofs.StateSet.Dependence

/-!
# Priming is a symmetry

Exchanging every variable with its twin renames the copies, and renaming a copy changes nothing but
names: it is its own inverse, it commutes with whatever is said about members one by one, and it
takes what is said about a copy to what is said about the twin. The last is where sizes matter. A
copy and its twin have as many values, so the values that quantification ranges over are those of
the twin.

The renaming is one of all copies at once, whatever the number of variables and their sizes; the
order in which the pairs are exchanged one after another does not show.
-/

namespace JusticeViolation

namespace Space

variable {sp : Space}

/-- Exchanging twice changes nothing. -/
theorem swap_swap {i : Nat} (hi : i < sp.size) : sp.swap (sp.swap i) = i :=
  eq_of_digit_eq (sp.swap_lt _) hi fun x ↦ by rw [digit_swap, digit_swap, VarId.twin_twin]

theorem twin_mem_ids_iff {x : VarId} : x.twin ∈ sp.registry.ids ↔ x ∈ sp.registry.ids :=
  ⟨fun h ↦ VarId.twin_twin x ▸ sp.registry.twin_mem_ids h, sp.registry.twin_mem_ids⟩

/-- Valuations that agree outside some copies do so, exchanged, outside the twins of these. -/
theorem agreeOff_swap_iff {xs : List VarId} {i j : Nat} :
    sp.AgreeOff xs (sp.swap i) (sp.swap j) ↔ sp.AgreeOff (xs.map VarId.twin) i j := by
  constructor
  · intro h x hx
    have hd := h x.twin fun hmem ↦ hx (List.mem_map.mpr ⟨x.twin, hmem, VarId.twin_twin x⟩)
    rwa [digit_swap, digit_swap, VarId.twin_twin] at hd
  · intro h x hx
    rw [digit_swap, digit_swap]
    refine h x.twin fun hmem ↦ hx ?_
    obtain ⟨y, hy, hyx⟩ := List.mem_map.mp hmem
    exact VarId.twin_inj hyx ▸ hy

end Space

namespace StateSet

variable {sp : Space} {s t : StateSet sp}

/-- **Priming moves every member.** -/
theorem mem_prime_iff_exists {i : Nat} : i ∈ s.prime ↔ ∃ j ∈ s, i = sp.swap j := by
  rw [mem_prime]
  constructor
  · rintro ⟨hi, h⟩
    exact ⟨sp.swap i, h, (Space.swap_swap hi).symm⟩
  · rintro ⟨j, hj, rfl⟩
    exact ⟨sp.swap_lt j, by rwa [Space.swap_swap (lt_size hj)]⟩

theorem swap_mem_prime_iff {i : Nat} (hi : i < sp.size) : sp.swap i ∈ s.prime ↔ i ∈ s := by
  rw [mem_prime, and_iff_right (sp.swap_lt i), Space.swap_swap hi]

/-! ## Boolean operations -/

/-- **Priming is an involution.** -/
theorem prime_prime (s : StateSet sp) : s.prime.prime = s := by
  refine ext_mem fun i ↦ ?_
  rw [mem_prime]
  constructor
  · rintro ⟨hi, h⟩
    exact (swap_mem_prime_iff hi).mp h
  · exact fun h ↦ ⟨lt_size h, (swap_mem_prime_iff (lt_size h)).mpr h⟩

theorem prime_inj : s.prime = t.prime ↔ s = t :=
  ⟨fun h ↦ by rw [← prime_prime s, h, prime_prime], fun h ↦ h ▸ rfl⟩

/-- Priming commutes with intersections. -/
theorem prime_inter (s t : StateSet sp) : (s ∩ t).prime = s.prime ∩ t.prime := by
  refine ext_mem fun i ↦ ?_
  rw [mem_prime, mem_inter, mem_inter, mem_prime, mem_prime, ← and_and_left]

/-- Priming commutes with unions. -/
theorem prime_union (s t : StateSet sp) : (s ∪ t).prime = s.prime ∪ t.prime := by
  refine ext_mem fun i ↦ ?_
  rw [mem_prime, mem_union, mem_union, mem_prime, mem_prime, and_or_left]

/-- Priming commutes with differences. -/
theorem prime_sdiff (s t : StateSet sp) : (s \ t).prime = s.prime \ t.prime := by
  refine ext_mem fun i ↦ ?_
  rw [mem_prime, mem_sdiff, mem_sdiff, mem_prime, mem_prime]
  constructor
  · rintro ⟨hi, hs, ht⟩
    exact ⟨⟨hi, hs⟩, fun h ↦ ht h.2⟩
  · rintro ⟨⟨hi, hs⟩, ht⟩
    exact ⟨hi, hs, fun h ↦ ht ⟨hi, h⟩⟩

theorem prime_univ : (univ : StateSet sp).prime = univ := by
  refine ext_mem fun i ↦ ?_
  rw [mem_prime, mem_univ, mem_univ, and_iff_left (sp.swap_lt i)]

/-- Priming commutes with complements. -/
theorem prime_compl (s : StateSet sp) : s.compl.prime = s.prime.compl := by
  rw [compl, compl, prime_sdiff, prime_univ]

/-! ## Copies -/

theorem cylinder_eq_zero {value stride position : Nat} {sizes : List Nat}
    (h : sizes.length ≤ position) : cylinder value stride position sizes = 0 := by
  induction sizes generalizing stride position with
  | nil => rw [cylinder]
  | cons n ns ih =>
    cases position with
    | zero => simp at h
    | succ position => exact ih (Nat.le_of_succ_le_succ h)

/-- What is no copy of a variable has no value. -/
theorem literal_of_not_mem {x : VarId} (hx : x ∉ sp.registry.ids) (value : Nat) :
    (literal x value : StateSet sp) = ∅ := by
  rw [Registry.mem_ids, ← sp.length_sizes, Nat.not_lt] at hx
  rw [literal, cylinder_eq_zero hx]
  exact ext_mem fun i ↦ by simp [mem_ofMask]

/-- **Priming takes a copy to its twin.** -/
theorem prime_literal (x : VarId) (value : Nat) :
    (literal x value : StateSet sp).prime = literal x.twin value := by
  by_cases hx : x ∈ sp.registry.ids
  · refine ext_mem fun i ↦ ?_
    rw [mem_prime, mem_literal hx, mem_literal (sp.registry.twin_mem_ids hx), Space.digit_swap,
      and_iff_right (sp.swap_lt i)]
  · rw [literal_of_not_mem hx, literal_of_not_mem (mt Space.twin_mem_ids_iff.mp hx)]
    exact ext_mem fun i ↦ by simp [mem_prime]

theorem forgetOne_of_not_mem {x : VarId} (hx : x ∉ sp.registry.ids) : s.forgetOne x = ∅ := by
  refine ext_mem fun i ↦ ?_
  have hbase : (literal x 0 : StateSet sp).mask = 0 := by rw [literal_of_not_mem hx]; rfl
  simp only [forgetOne, hbase, mem_ofMask, Nat.and_zero, Mask.testBit_tile, Nat.zero_testBit,
    Bool.false_eq_true, and_false, exists_false, not_mem_empty]

theorem prime_forgetOne (s : StateSet sp) (x : VarId) :
    (s.forgetOne x).prime = s.prime.forgetOne x.twin := by
  by_cases hx : x ∈ sp.registry.ids
  · refine ext_mem fun i ↦ ?_
    rw [mem_prime, mem_forgetOne hx, mem_forgetOne (sp.registry.twin_mem_ids hx),
      and_iff_right (sp.swap_lt i)]
    refine and_congr_right fun hi ↦ ?_
    constructor
    · rintro ⟨j, hj, hij⟩
      refine ⟨sp.swap j, (swap_mem_prime_iff (lt_size hj)).mpr hj, ?_⟩
      rw [← Space.swap_swap (lt_size hj)] at hij
      exact Space.agreeOff_swap_iff.mp hij
    · rintro ⟨j, hj, hij⟩
      exact ⟨sp.swap j, (mem_prime.mp hj).2, Space.agreeOff_swap_iff.mpr hij⟩
  · rw [forgetOne_of_not_mem hx, forgetOne_of_not_mem (mt Space.twin_mem_ids_iff.mp hx)]
    exact ext_mem fun i ↦ by simp [mem_prime]

/-- **Quantification over copies, primed, is quantification over their twins.** -/
theorem prime_forget (s : StateSet sp) (xs : List VarId) :
    (s.forget xs).prime = s.prime.forget (xs.map VarId.twin) := by
  unfold forget
  induction xs generalizing s with
  | nil => rfl
  | cons x xs ih => rw [List.foldl_cons, ih, prime_forgetOne, List.map_cons, List.foldl_cons]

theorem prime_always (s : StateSet sp) (xs : List VarId) :
    (s.always xs).prime = s.prime.always (xs.map VarId.twin) := by
  rw [always, prime_compl, prime_forget, prime_compl, always]

/-- **Priming is a symmetry of the algebra of sets.** It is an involution which moves every
valuation to the one with all twins exchanged, commutes with the Boolean operations, and takes
literals and quantifiers to those of the twins. -/
theorem prime_symmetry (s t : StateSet sp) (x : VarId) (value : Nat) (xs : List VarId) :
    s.prime.prime = s ∧
      ((∀ i, i ∈ s.prime ↔ ∃ j ∈ s, i = sp.swap j) ∧
        ∀ i y, sp.digit (sp.swap i) y = sp.digit i y.twin) ∧
      ((s ∩ t).prime = s.prime ∩ t.prime ∧ (s ∪ t).prime = s.prime ∪ t.prime ∧
        s.compl.prime = s.prime.compl ∧ (s \ t).prime = s.prime \ t.prime ∧
        (s.prime = t.prime ↔ s = t)) ∧
      (literal x value : StateSet sp).prime = literal x.twin value ∧
      (s.forget xs).prime = s.prime.forget (xs.map VarId.twin) ∧
      (s.always xs).prime = s.prime.always (xs.map VarId.twin) :=
  ⟨prime_prime s, ⟨fun _ ↦ mem_prime_iff_exists, sp.digit_swap⟩,
    ⟨prime_inter s t, prime_union s t, prime_compl s, prime_sdiff s t, prime_inj⟩,
    prime_literal x value, prime_forget s xs, prime_always s xs⟩

end StateSet

end JusticeViolation

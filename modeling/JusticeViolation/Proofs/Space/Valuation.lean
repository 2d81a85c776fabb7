import JusticeViolation.Proofs.Registry

/-!
# Accepted registries and their valuations

A registry is accepted exactly if the product of the sizes of all copies is within the limit. The
product is formed factor by factor and given up at the first partial product beyond the limit; as no
copy is without values, no later factor would have brought it back.

For an accepted registry, reading digits is a bijection from the numbers below the product to the
assignments of a value to every copy.
-/

namespace JusticeViolation

namespace Registry

variable {r : Registry}

/-- The sizes that are multiplied are those of the copies, in their order. -/
theorem sizes_eq_map (r : Registry) : r.sizes = r.ids.map r.domainSize := by
  refine List.ext_getElem (by simp [r.length_sizes, ids]) fun k hk _ ↦ ?_
  have hlt : k / 2 < r.declared.length := by
    rw [length_sizes, length] at hk
    omega
  rw [← List.getD_eq_getElem _ 1 hk, getD_sizes, List.getElem?_eq_getElem hlt]
  simp only [ids, List.getElem_map, List.getElem_range, domainSize, values, declaration?,
    List.getElem?_eq_getElem hlt]
  rfl

end Registry

namespace Space

variable {r : Registry} {sp : Space}

theorem le_mul_volume {total : Nat} {sizes : List Nat} (hpos : ∀ n ∈ sizes, 0 < n) :
    total ≤ total * volume sizes := by
  refine Nat.le_mul_of_pos_right total ?_
  rw [volume_eq_prod]
  exact List.prod_pos hpos

/-- **A running product stays beyond the limit.** -/
theorem overflow?_eq_none_iff {total : Nat} {sizes : List Nat} (ht : total ≤ limit)
    (hpos : ∀ n ∈ sizes, 0 < n) :
    overflow? total sizes = none ↔ total * volume sizes ≤ limit := by
  refine ⟨mul_volume_le_of_overflow? ht, fun h ↦ ?_⟩
  induction sizes generalizing total with
  | nil => rfl
  | cons n ns ih =>
    have hns : ∀ k ∈ ns, 0 < k := fun k hk ↦ hpos k (List.mem_cons_of_mem n hk)
    have hvolume : total * volume (n :: ns) = total * n * volume ns := by
      rw [volume, List.foldr_cons, ← volume, Nat.mul_assoc]
    rw [hvolume] at h
    have hle : total * n ≤ limit := (le_mul_volume hns).trans h
    rw [overflow?, if_neg (Nat.not_lt.mpr hle)]
    exact ih hle hns h

theorem registry_of_ofRegistry (h : ofRegistry r = .ok sp) : sp.registry = r := by
  unfold ofRegistry at h
  split at h
  · cases h
  · rw [← Except.ok.inj h]

/-- **Only the product counts.** -/
theorem exists_ofRegistry_iff : (∃ sp, ofRegistry r = .ok sp) ↔ volume r.sizes ≤ limit := by
  have hiff : overflow? 1 r.sizes = none ↔ 1 * volume r.sizes ≤ limit :=
    overflow?_eq_none_iff (by decide) fun n hn ↦ Registry.pos_of_mem_sizes hn
  rw [Nat.one_mul] at hiff
  rw [← hiff]
  unfold ofRegistry
  split
  · rename_i total hsome
    simp [hsome]
  · rename_i hnone
    simp [hnone]

/-! ## Reading a valuation -/

/-- The values that the valuation `i` gives to the copies of variables. -/
def valuation (sp : Space) (i : Fin sp.size) (x : { x // x ∈ sp.registry.ids }) :
    Fin (sp.registry.domainSize x) :=
  ⟨sp.digit i x, by
    have hsize : sp.registry.domainSize x = sp.domainSize x := length_values x.2
    exact hsize ▸ sp.digit_lt i x⟩

/-- **A number is as good as the values it stands for.** -/
theorem bijective_valuation (sp : Space) : Function.Bijective sp.valuation := by
  constructor
  · intro i j h
    refine Fin.ext (eq_of_digit_eq i.2 j.2 fun x ↦ ?_)
    by_cases hx : x ∈ sp.registry.ids
    · exact congrArg Fin.val (congrFun h ⟨x, hx⟩)
    · rw [digit_of_not_mem hx, digit_of_not_mem hx]
  · intro f
    let value (x : VarId) : Nat := if hx : x ∈ sp.registry.ids then f ⟨x, hx⟩ else 0
    have hvalue : ∀ x, value x < sp.domainSize x := by
      intro x
      by_cases hx : x ∈ sp.registry.ids
      · have hsize : sp.registry.domainSize x = sp.domainSize x := length_values hx
        simpa only [value, hx, dif_pos] using (f ⟨x, hx⟩).2.trans_eq hsize
      · simpa only [value, hx, dif_neg, not_false_iff] using sp.domainSize_pos x
    refine ⟨⟨sp.encode value, encode_lt hvalue⟩, funext fun x ↦ Fin.ext ?_⟩
    exact (digit_encode hvalue x).trans (dif_pos x.2)

end Space

end JusticeViolation

import Mathlib.Algebra.Order.BigOperators.Group.Finset
import Mathlib.Data.Nat.Count
import JusticeViolation.Proofs.Registry
import JusticeViolation.Proofs.StateSet.Closure

/-!
# Counting valuations

The valuations of some variables that extend to a member of a set are not enumerated to be counted.
The set is made independent of all other variables, its members are counted, and the number is
divided by the volume of the other variables. For the members that agree on the given variables are
then all variants of one of them, and there are as many variants as the other variables have
valuations, whichever member is taken.

Counting members halves the mask again and again. That this counts bits below a power of two says
nothing about where the mask ends, but there are no bits beyond the size of the space.
-/

namespace JusticeViolation

/-- The bits below a power of two, counted by halving. -/
theorem Mask.card_eq_count (level m : Nat) :
    Mask.card level m = Nat.count (fun i ↦ m.testBit i = true) (2 ^ level) := by
  induction level generalizing m with
  | zero =>
    rw [card, pow_zero, Nat.count_one, Nat.testBit_zero]
    rcases Nat.mod_two_eq_zero_or_one m with h | h <;> simp [h]
  | succ level ih =>
    rw [card, pow_succ, Nat.mul_two, Nat.count_add]
    split
    · rename_i hzero
      simp [hzero]
    · have hlow : ∀ i ∈ Finset.range (2 ^ level),
          (m % Nat.pow 2 (Nat.pow 2 level)).testBit i = true ↔ m.testBit i = true := fun i hi ↦ by
        rw [show Nat.pow 2 (Nat.pow 2 level) = 2 ^ 2 ^ level from rfl, Nat.testBit_mod_two_pow,
          decide_eq_true (Finset.mem_range.mp hi), Bool.true_and]
      rw [ih, ih, Nat.count_eq_card_filter_range, Nat.count_eq_card_filter_range,
        Nat.count_eq_card_filter_range, Nat.count_eq_card_filter_range, Finset.filter_congr hlow]
      simp only [Nat.testBit_shiftRight]
      rfl

namespace Space

variable {sp : Space} {xs : List VarId} {x : VarId} {i j : Nat}

/-- The valuations that differ from `i` on `xs` at most. -/
def variants (sp : Space) : List VarId → Nat → Finset Nat
  | [], i => {i}
  | x :: xs, i => (Finset.range (sp.domainSize x)).biUnion fun v ↦ sp.variants xs (sp.put i x v)

theorem mem_variants (hi : i < sp.size) :
    j ∈ sp.variants xs i ↔ j < sp.size ∧ sp.AgreeOff xs j i := by
  induction xs generalizing i with
  | nil =>
    rw [variants, Finset.mem_singleton]
    constructor
    · rintro rfl
      exact ⟨hi, .refl _ _⟩
    · exact fun ⟨hj, hagree⟩ ↦ eq_of_digit_eq hj hi fun x ↦ hagree x List.not_mem_nil
  | cons x xs ih =>
    simp only [variants, Finset.mem_biUnion, Finset.mem_range]
    constructor
    · rintro ⟨v, hv, hj⟩
      obtain ⟨hlt, hagree⟩ := (ih (put_lt hv)).mp hj
      refine ⟨hlt, fun y hy ↦ ?_⟩
      rw [List.mem_cons, not_or] at hy
      rw [hagree y hy.2, digit_put_of_ne hv hy.1]
    · rintro ⟨hlt, hagree⟩
      have hv := sp.digit_lt j x
      refine ⟨sp.digit j x, hv, (ih (put_lt hv)).mpr ⟨hlt, fun y hy ↦ ?_⟩⟩
      by_cases hyx : y = x
      · rw [hyx, digit_put_self hv]
      · rw [digit_put_of_ne hv hyx]
        exact hagree y fun hmem ↦ (List.mem_cons.mp hmem).elim hyx hy

/-- **Every valuation has as many variants.** -/
theorem card_variants (hxs : xs.Nodup) (hi : i < sp.size) :
    (sp.variants xs i).card = volume (xs.map sp.domainSize) := by
  induction xs generalizing i with
  | nil => rfl
  | cons x xs ih =>
    obtain ⟨hx, hxs⟩ := List.nodup_cons.mp hxs
    have hdisjoint : ∀ v ∈ Finset.range (sp.domainSize x), ∀ w ∈ Finset.range (sp.domainSize x),
        v ≠ w → Disjoint (sp.variants xs (sp.put i x v)) (sp.variants xs (sp.put i x w)) := by
      intro v hv w hw hne
      rw [Finset.mem_range] at hv hw
      refine Finset.disjoint_left.mpr fun j hjv hjw ↦ hne ?_
      -- `x` is not among the rest, so a variant still tells which value it was given
      have hdv := ((mem_variants (put_lt hv)).mp hjv).2 x hx
      have hdw := ((mem_variants (put_lt hw)).mp hjw).2 x hx
      rwa [hdv, digit_put_self hv, digit_put_self hw] at hdw
    calc (sp.variants (x :: xs) i).card
        = ∑ v ∈ Finset.range (sp.domainSize x), (sp.variants xs (sp.put i x v)).card :=
          Finset.card_biUnion hdisjoint
      _ = ∑ _v ∈ Finset.range (sp.domainSize x), volume (xs.map sp.domainSize) :=
          Finset.sum_congr rfl fun v hv ↦ ih hxs (put_lt (Finset.mem_range.mp hv))
      _ = volume ((x :: xs).map sp.domainSize) := by
          rw [Finset.sum_const, Finset.card_range]
          rfl

theorem volume_pos (sp : Space) (xs : List VarId) : 0 < volume (xs.map sp.domainSize) := by
  rw [volume_eq_prod]
  refine List.prod_pos fun n hn ↦ ?_
  obtain ⟨x, -, rfl⟩ := List.mem_map.mp hn
  exact sp.domainSize_pos x

theorem digits_eq_iff : sp.digits i xs = sp.digits j xs ↔ ∀ x ∈ xs, sp.digit i x = sp.digit j x :=
  List.map_inj_left

end Space

namespace StateSet

variable {sp : Space} {s t : StateSet sp} {xs : List VarId}

theorem card_eq (s : StateSet sp) : s.card = s.members.card := by
  rw [card, Mask.card_eq_count, Nat.count_eq_card_filter_range]
  refine congrArg Finset.card (Finset.ext fun i ↦ ?_)
  rw [Finset.mem_filter, Finset.mem_range, mem_members, mem_def, and_iff_right_of_imp]
  exact fun hi ↦ (lt_size hi).trans Nat.lt_log2_self

/-- The valuations of `xs` that extend to a member. -/
def projection (s : StateSet sp) (xs : List VarId) : Finset (List Nat) :=
  s.members.image fun i ↦ sp.digits i xs

theorem mem_projection {values : List Nat} :
    values ∈ s.projection xs ↔ ∃ i ∈ s, sp.digits i xs = values := by
  simp only [projection, Finset.mem_image, mem_members]

theorem projection_eq_empty (h : ∀ i, i ∉ s) (xs : List VarId) : s.projection xs = ∅ := by
  refine Finset.eq_empty_of_forall_notMem fun values hvalues ↦ ?_
  obtain ⟨i, hi, -⟩ := mem_projection.mp hvalues
  exact h i hi

/-- What a set says about other variables does not matter to a projection. -/
theorem projection_forget {ys : List VarId} (hys : ∀ y ∈ ys, y ∈ sp.registry.ids)
    (hxs : ∀ x ∈ xs, x ∉ ys) : (s.forget ys).projection xs = s.projection xs := by
  refine Finset.ext fun values ↦ ?_
  simp only [mem_projection, mem_forget hys]
  constructor
  · rintro ⟨i, ⟨-, j, hj, hij⟩, rfl⟩
    exact ⟨j, hj, Space.digits_eq_iff.mpr fun x hx ↦ (hij x (hxs x hx)).symm⟩
  · rintro ⟨i, hi, rfl⟩
    exact ⟨i, ⟨lt_size hi, i, hi, .refl _ _⟩, rfl⟩

/-- **Members of a widened set** come in classes of one size: those that read the same on `xs` are
the variants of one of them. -/
theorem card_forget (s : StateSet sp) {others : List VarId} (hnodup : others.Nodup)
    (hmem : ∀ x, x ∈ others ↔ x ∈ sp.registry.ids ∧ x ∉ xs) :
    (s.forget others).card = (s.projection xs).card * volume (others.map sp.domainSize) := by
  have hids : ∀ x ∈ others, x ∈ sp.registry.ids := fun x hx ↦ ((hmem x).mp hx).1
  -- the members of the widened set that agree with `i` on `xs` are the variants of `i`
  have hfibre : ∀ values ∈ (s.forget others).projection xs,
      ((s.forget others).members.filter fun i ↦ sp.digits i xs = values).card =
        volume (others.map sp.domainSize) := by
    intro values hvalues
    obtain ⟨i, hi, rfl⟩ := mem_projection.mp hvalues
    rw [← Space.card_variants hnodup (lt_size hi)]
    refine congrArg Finset.card (Finset.ext fun j ↦ ?_)
    rw [Finset.mem_filter, mem_members, Space.mem_variants (lt_size hi), Space.digits_eq_iff]
    constructor
    · rintro ⟨hj, hagree⟩
      refine ⟨lt_size hj, fun x hx ↦ ?_⟩
      by_cases hxids : x ∈ sp.registry.ids
      · exact hagree x (by_contra fun hxs ↦ hx ((hmem x).mpr ⟨hxids, hxs⟩))
      · rw [Space.digit_of_not_mem hxids, Space.digit_of_not_mem hxids]
    · rintro ⟨hlt, hagree⟩
      obtain ⟨-, k, hk, hik⟩ := (mem_forget hids).mp hi
      exact ⟨(mem_forget hids).mpr ⟨hlt, k, hk, hagree.trans hik⟩,
        fun x hx ↦ hagree x fun hx' ↦ ((hmem x).mp hx').2 hx⟩
  calc (s.forget others).card
      = ∑ values ∈ (s.forget others).projection xs,
          ((s.forget others).members.filter fun i ↦ sp.digits i xs = values).card := by
        rw [card_eq]
        exact Finset.card_eq_sum_card_image _ _
    _ = ((s.forget others).projection xs).card * volume (others.map sp.domainSize) := by
        rw [Finset.sum_congr rfl hfibre, Finset.sum_const]
        rfl
    _ = (s.projection xs).card * volume (others.map sp.domainSize) := by
        rw [projection_forget hids fun x hx hx' ↦ ((hmem x).mp hx').2 hx]

theorem mem_filter_not_contains {x : VarId} :
    (x ∈ sp.registry.ids.filter fun x ↦ !xs.contains x) ↔ x ∈ sp.registry.ids ∧ x ∉ xs := by
  rw [List.mem_filter, Bool.not_eq_true', ← Bool.not_eq_true, List.contains_iff_mem]

/-- **Counting by a quotient**: the number of valuations of `xs` that extend to a member. -/
theorem count_eq (s : StateSet sp) (xs : List VarId) : s.count xs = (s.projection xs).card := by
  unfold count
  dsimp only
  rw [card_forget s (sp.registry.nodup_ids.filter _) fun _ ↦ mem_filter_not_contains,
    Nat.mul_div_cancel _ (sp.volume_pos _)]

/-- No member of `s` reads the same on `xs` as a member of `t`. -/
def ApartOn (xs : List VarId) (s t : StateSet sp) : Prop :=
  ∀ i ∈ s, ∀ j ∈ t, sp.digits i xs ≠ sp.digits j xs

/-- **Counts of a division add up**, if the parts are told apart by what is counted. -/
theorem sum_count {ss : List (StateSet sp)} (hcover : ∀ i, (∃ s ∈ ss, i ∈ s) ↔ i ∈ t)
    (hapart : ss.Pairwise (ApartOn xs)) : (ss.map (·.count xs)).sum = t.count xs := by
  induction ss generalizing t with
  | nil =>
    have hempty : ∀ i, i ∉ t := fun i hi ↦ by
      obtain ⟨s, hs, -⟩ := (hcover i).mpr hi
      exact absurd hs List.not_mem_nil
    rw [count_eq, projection_eq_empty hempty]
    rfl
  | cons s ss ih =>
    obtain ⟨hs, hss⟩ := List.pairwise_cons.mp hapart
    have hunion : t.projection xs = s.projection xs ∪ (unionAll ss).projection xs := by
      refine Finset.ext fun values ↦ ?_
      simp only [Finset.mem_union, mem_projection, ← hcover, List.exists_mem_cons_iff, mem_unionAll,
        or_and_right, exists_or]
    have hdisjoint : Disjoint (s.projection xs) ((unionAll ss).projection xs) := by
      refine Finset.disjoint_left.mpr fun values hvalues hvalues' ↦ ?_
      obtain ⟨i, hi, rfl⟩ := mem_projection.mp hvalues
      obtain ⟨j, hj, heq⟩ := mem_projection.mp hvalues'
      obtain ⟨s', hs', hj⟩ := mem_unionAll.mp hj
      exact hs s' hs' i hi j hj heq.symm
    calc ((s :: ss).map (·.count xs)).sum
        = s.count xs + (unionAll ss).count xs := by
          rw [List.map_cons, List.sum_cons, ih (fun i ↦ mem_unionAll.symm) hss]
      _ = t.count xs := by
          rw [count_eq, count_eq, count_eq, hunion, Finset.card_union_of_disjoint hdisjoint]

end StateSet

end JusticeViolation

import JusticeViolation.Fact
import JusticeViolation.Proofs.Registry
import JusticeViolation.Proofs.StateSet.Dependence

/-!
# What the facts of a set say

A set with a member *fixes* a variable at the value that all its members give to it. If the variable
has another value as well, then membership depends on it. So the facts of a set with a member are
the values at which it fixes current variables of more than one value, in the order of the registry.

A union of sets with members fixes what all of them fix. Its facts are those of any one of them that
the others share, in the same order.
-/

namespace JusticeViolation

namespace StateSet

variable {sp : Space} {s : StateSet sp} {skip : List VarId} {x : VarId} {v w : Nat}

/-! ## Fixed values -/

/-- All members of `s` give `x` the value `v`. -/
def Fixes (s : StateSet sp) (x : VarId) (v : Nat) : Prop := ∀ i ∈ s, sp.digit i x = v

/-- A set with a member fixes a variable at one value only. -/
theorem Fixes.unique (hs : ∃ i, i ∈ s) (hv : s.Fixes x v) (hw : s.Fixes x w) : v = w := by
  obtain ⟨i, hi⟩ := hs
  rw [← hv i hi, hw i hi]

theorem Fixes.lt_domainSize (hs : ∃ i, i ∈ s) (hv : s.Fixes x v) : v < sp.domainSize x := by
  obtain ⟨i, hi⟩ := hs
  exact hv i hi ▸ sp.digit_lt i x

theorem inter_literal_eq_iff (hx : x ∈ sp.registry.ids) :
    s ∩ literal x v = s ↔ s.Fixes x v := by
  constructor
  · intro h i hi
    rw [← h] at hi
    exact ((mem_literal hx).mp (mem_inter.mp hi).2).2
  · intro h
    refine ext_mem fun i ↦ ?_
    rw [mem_inter, and_iff_left_iff_imp]
    exact fun hi ↦ (mem_literal hx).mpr ⟨lt_size hi, h i hi⟩

theorem fixedValue?_eq_some_iff (hs : ∃ i, i ∈ s) (hx : x ∈ sp.registry.ids) :
    s.fixedValue? x = some v ↔ s.Fixes x v := by
  have htest : ∀ v, (s ∩ literal x v == s) = true ↔ s.Fixes x v := fun v ↦ by
    rw [beq_iff_eq, inter_literal_eq_iff hx]
  rw [fixedValue?, List.find?_range_eq_some, htest, List.mem_range]
  constructor
  · exact fun h ↦ h.1
  · intro h
    refine ⟨h, h.lt_domainSize hs, fun j hj ↦ ?_⟩
    rw [Bool.not_eq_true', ← Bool.not_eq_true, htest]
    exact fun h' ↦ Nat.ne_of_lt hj (h'.unique hs h)

/-- **A fixed variable matters** as soon as it has a second value. -/
theorem mem_support_iff_of_fixes (hs : ∃ i, i ∈ s) (hx : x ∈ sp.registry.ids)
    (h : s.Fixes x v) : x ∈ s.support ↔ 1 < sp.domainSize x := by
  rw [← not_iff_not, ← dependsOn_ne_iff hx, Nat.not_lt]
  constructor
  · intro hdep
    by_contra hlt
    obtain ⟨i, hi⟩ := hs
    -- give `x` another value
    obtain ⟨w, hw, hne⟩ : ∃ w, w < sp.domainSize x ∧ w ≠ v := by
      by_cases h0 : v = 0
      · exact ⟨1, Nat.not_le.mp hlt, by omega⟩
      · exact ⟨0, by omega, fun heq ↦ h0 heq.symm⟩
    have hput : sp.put i x w ∈ s :=
      (hdep i _ (lt_size hi) (Space.put_lt hw) fun y hy ↦ (Space.digit_put_of_ne hw hy).symm).mp hi
    exact hne ((Space.digit_put_self hw).symm.trans (h _ hput))
  · intro hle i j hi hj hij
    have heq : i = j := by
      refine Space.eq_of_digit_eq hi hj fun y ↦ ?_
      by_cases hy : y = x
      · have hdi := sp.digit_lt i y
        have hdj := sp.digit_lt j y
        rw [hy] at hdi hdj ⊢
        omega
      · exact hij y hy
    rw [heq]

/-! ## Facts -/

/-- The fact that `x` has the value `v`. -/
def factOf (sp : Space) (x : VarId) (v : Nat) : Fact :=
  ⟨sp.registry.name x, sp.registry.valueName x v⟩

theorem factOf_inj {y : VarId} (hx : x ∈ sp.registry.ids) (hy : y ∈ sp.registry.ids)
    (hv : v < sp.domainSize x) (hw : w < sp.domainSize y) (h : factOf sp x v = factOf sp y w) :
    x = y ∧ v = w := by
  obtain ⟨hname, hvalue⟩ := Fact.mk.inj h
  obtain rfl := Registry.eq_of_name_eq hx hy hname
  rw [← Space.length_values hx] at hv hw
  exact ⟨rfl, Registry.valueName_inj hv hw hvalue⟩

/-- The fact of a set about `x`, if `x` is a current variable with more than one value. -/
def fact? (s : StateSet sp) (skip : List VarId) (x : VarId) : Option Fact :=
  if x.isPrimed = false ∧ x ∉ skip ∧ 1 < sp.domainSize x then (s.fixedValue? x).map (factOf sp x)
  else none

/-- The facts of a set with a member, variable by variable. -/
theorem facts_eq_filterMap (hs : ∃ i, i ∈ s) (skip : List VarId) :
    s.facts skip = sp.registry.ids.filterMap (s.fact? skip) := by
  rw [facts, isEmpty_eq_false_iff.mpr hs, if_neg Bool.false_ne_true, support, List.filter_filter,
    List.filterMap_filter]
  refine List.filterMap_congr fun x hx ↦ ?_
  rw [fact?]
  cases hv : s.fixedValue? x with
  | none => simp only [Option.map_none, ite_self]
  | some v =>
    have hsupport := mem_support_iff_of_fixes hs hx ((fixedValue?_eq_some_iff hs hx).mp hv)
    rw [support, List.mem_filter, and_iff_right hx] at hsupport
    refine if_congr ?_ rfl rfl
    rw [Bool.and_eq_true, Bool.and_eq_true, hsupport, Bool.not_eq_true', Bool.not_eq_true',
      List.contains_eq_mem, decide_eq_false_iff_not, and_assoc]

theorem fact?_eq_some_iff (hs : ∃ i, i ∈ s) (hx : x ∈ sp.registry.ids) {f : Fact} :
    s.fact? skip x = some f ↔ (x.isPrimed = false ∧ x ∉ skip ∧ 1 < sp.domainSize x) ∧
      ∃ v, s.Fixes x v ∧ factOf sp x v = f := by
  rw [fact?, Option.ite_none_right_eq_some, Option.map_eq_some_iff]
  refine and_congr_right fun _ ↦ exists_congr fun v ↦ ?_
  rw [fixedValue?_eq_some_iff hs hx]

/-- **What a fact says.** -/
theorem mem_facts_iff (hs : ∃ i, i ∈ s) {f : Fact} :
    f ∈ s.facts skip ↔ ∃ x ∈ sp.registry.ids,
      (x.isPrimed = false ∧ x ∉ skip ∧ 1 < sp.domainSize x) ∧
        ∃ v, s.Fixes x v ∧ factOf sp x v = f := by
  rw [facts_eq_filterMap hs, List.mem_filterMap]
  exact exists_congr fun x ↦ and_congr_right fun hx ↦ fact?_eq_some_iff hs hx

/-- The fact about a variable is among the facts if the set fixes the variable at its value. -/
theorem factOf_mem_facts_iff (hs : ∃ i, i ∈ s) (hx : x ∈ sp.registry.ids)
    (hguard : x.isPrimed = false ∧ x ∉ skip ∧ 1 < sp.domainSize x) (hv : v < sp.domainSize x) :
    factOf sp x v ∈ s.facts skip ↔ s.Fixes x v := by
  rw [mem_facts_iff hs]
  constructor
  · rintro ⟨y, hy, hguard', w, hw, heq⟩
    obtain ⟨rfl, rfl⟩ := factOf_inj hy hx (hw.lt_domainSize hs) hv heq
    exact hw
  · exact fun h ↦ ⟨x, hx, hguard, v, h, rfl⟩

/-- **The facts of a union**: those of one part that all parts share. -/
theorem facts_eq_filter (part : StateSet sp → Prop) {t : StateSet sp} (ht : part t)
    (hunion : ∀ i, i ∈ s ↔ ∃ u, part u ∧ i ∈ u) (hne : ∀ u, part u → ∃ i, i ∈ u)
    {shared : Fact → Bool} (hshared : ∀ f, shared f = true ↔ ∀ u, part u → f ∈ u.facts skip) :
    s.facts skip = (t.facts skip).filter shared := by
  have hs : ∃ i, i ∈ s := by
    obtain ⟨i, hi⟩ := hne t ht
    exact ⟨i, (hunion i).mpr ⟨t, ht, hi⟩⟩
  have hfixes : ∀ x v, s.Fixes x v ↔ ∀ u, part u → u.Fixes x v := fun x v ↦
    ⟨fun h u hu i hi ↦ h i ((hunion i).mpr ⟨u, hu, hi⟩), fun h i hi ↦ by
      obtain ⟨u, hu, hiu⟩ := (hunion i).mp hi
      exact h u hu i hiu⟩
  rw [facts_eq_filterMap hs, facts_eq_filterMap (hne t ht), List.filter_filterMap]
  refine List.filterMap_congr fun x hx ↦ Option.ext fun f ↦ ?_
  rw [fact?_eq_some_iff hs hx, Option.filter_eq_some_iff, fact?_eq_some_iff (hne t ht) hx, hshared]
  constructor
  · rintro ⟨hguard, v, hv, rfl⟩
    have hparts := (hfixes x v).mp hv
    refine ⟨⟨hguard, v, hparts t ht, rfl⟩, fun u hu ↦ ?_⟩
    exact (factOf_mem_facts_iff (hne u hu) hx hguard (hv.lt_domainSize hs)).mpr (hparts u hu)
  · rintro ⟨⟨hguard, v, hv, rfl⟩, hall⟩
    refine ⟨hguard, v, (hfixes x v).mpr fun u hu ↦ ?_, rfl⟩
    exact (factOf_mem_facts_iff (hne u hu) hx hguard (hv.lt_domainSize (hne t ht))).mp (hall u hu)

end StateSet

end JusticeViolation

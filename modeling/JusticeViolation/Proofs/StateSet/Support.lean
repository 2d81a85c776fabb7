import JusticeViolation.Proofs.Checked.Index
import JusticeViolation.Proofs.Game.Solution

/-!
# The support of a set

Whether a copy belongs to the support is tested for this copy alone: the set is spread along its
axis and compared with what it was. A copy passes if a change of its value, and of nothing else, can
lead out of the set. That the copies which fail do not matter together either is more than that. But
a set that is spread along the axis of such a copy stays what it was, so the next test still speaks
of the same set, and one axis after another may be taken.

Valuations that agree on the support are therefore both members or both not. Where agreement on some
copies is enough for that, none of the others passes the test, so the support is the least
collection of copies with this property.
-/

namespace JusticeViolation.StateSet

variable {sp : Space} {s : StateSet sp} {x : VarId} {xs : List VarId}

/-- Copies outside the support may be forgotten, however many they are. -/
theorem forget_eq_self (hxs : ∀ x ∈ xs, x ∈ sp.registry.ids) (h : ∀ x ∈ xs, x ∉ s.support) :
    s.forget xs = s := by
  induction xs with
  | nil => rfl
  | cons x xs ih =>
    obtain ⟨hx, hxs⟩ := List.forall_mem_cons.mp hxs
    obtain ⟨hout, hrest⟩ := List.forall_mem_cons.mp h
    rw [forget, List.foldl_cons, (forgetOne_eq_self_iff hx).mpr hout]
    exact ih hxs hrest

/-- **Only the support matters.** -/
theorem dependsOn_support (s : StateSet sp) : s.DependsOn (· ∈ s.support) := by
  let others := sp.registry.ids.filter fun x ↦ decide (x ∉ s.support)
  have hothers : ∀ x, x ∈ others ↔ x ∈ sp.registry.ids ∧ x ∉ s.support := fun x ↦ by
    rw [List.mem_filter, decide_eq_true_iff]
  have hsame : s.forget others = s :=
    forget_eq_self (fun x hx ↦ ((hothers x).mp hx).1) fun x hx ↦ ((hothers x).mp hx).2
  have key : ∀ i j, j < sp.size → (∀ x ∈ s.support, sp.digit i x = sp.digit j x) →
      i ∈ s → j ∈ s := by
    intro i j hj hij hi
    rw [← hsame, mem_forget fun x hx ↦ ((hothers x).mp hx).1]
    refine ⟨hj, i, hi, fun x hx ↦ ?_⟩
    by_cases hid : x ∈ sp.registry.ids
    · have hmem : x ∈ s.support := by_contra fun hout ↦ hx ((hothers x).mpr ⟨hid, hout⟩)
      exact (hij x hmem).symm
    · rw [Space.digit_of_not_mem hid, Space.digit_of_not_mem hid]
  exact fun i j hi hj hij ↦ ⟨key i j hj hij, key j i hi fun x hx ↦ (hij x hx).symm⟩

/-- **The support is least** among the collections of copies that membership depends on. -/
theorem dependsOn_iff {p : VarId → Prop} : s.DependsOn p ↔ ∀ x ∈ s.support, p x := by
  refine ⟨fun h x hx ↦ ?_, fun h ↦ (dependsOn_support s).mono h⟩
  by_contra hp
  have hne : s.DependsOn (· ≠ x) := h.mono fun y hy heq ↦ hp (heq ▸ hy)
  exact (dependsOn_ne_iff (List.mem_filter.mp hx).1).mp hne hx

/-- **What the support holds**: the copies of which a change alone can lead out of the set. -/
theorem mem_support_iff :
    x ∈ s.support ↔ ∃ i ∈ s, ∃ j, j < sp.size ∧ j ∉ s ∧ sp.AgreeOff [x] i j := by
  constructor
  · intro hx
    by_contra hno
    push Not at hno
    have hstay : ∀ i j, j < sp.size → (∀ y, y ≠ x → sp.digit i y = sp.digit j y) → i ∈ s → j ∈ s :=
      fun i j hj hij hi ↦ by_contra fun hout ↦
        hno i hi j hj hout fun y hy ↦ hij y fun heq ↦ hy (List.mem_singleton.mpr heq)
    refine (dependsOn_ne_iff (List.mem_filter.mp hx).1).mp (fun i j hi hj hij ↦ ?_) hx
    exact ⟨hstay i j hj hij, hstay j i hi fun y hy ↦ (hij y hy).symm⟩
  · rintro ⟨i, hi, j, hj, hout, hij⟩
    by_contra hx
    have hagree : ∀ y ∈ s.support, sp.digit i y = sp.digit j y := fun y hy ↦
      hij y fun hmem ↦ hx (List.mem_singleton.mp hmem ▸ hy)
    exact hout ((dependsOn_support s i j (lt_size hi) hj hagree).mp hi)

/-- **The support is exactly what membership depends on.** It lists, in the order of the registry,
the copies of which a change alone can lead out of the set. Valuations that agree on it are both
members or both not, and so it is the least collection of copies for which this holds. Where a set
is kept as a collection of indices, a copy is in the support if quantifying it adds an index. -/
theorem support_exact (s : StateSet sp) :
    s.support.Sublist sp.registry.ids ∧
    (∀ x, x ∈ s.support ↔ ∃ i ∈ s, ∃ j, j < sp.size ∧ j ∉ s ∧ sp.AgreeOff [x] i j) ∧
    (∀ i j, i < sp.size → j < sp.size → (∀ x ∈ s.support, sp.digit i x = sp.digit j x) →
      (i ∈ s ↔ j ∈ s)) ∧
    (∀ p, s.DependsOn p ↔ ∀ x ∈ s.support, p x) ∧
    ∀ is, s.ListedBy is → ∀ x ∈ sp.registry.ids,
      ∃ js, sp.table.forget is [x] = .ok js ∧ (x ∈ s.support ↔ ∃ j ∈ js, j ∉ is) := by
  refine ⟨List.filter_sublist, fun _ ↦ mem_support_iff, dependsOn_support s, fun _ ↦ dependsOn_iff,
    fun is his x hx ↦ ?_⟩
  have hids : ∀ y ∈ [x], y ∈ sp.registry.ids := fun y hy ↦ List.mem_singleton.mp hy ▸ hx
  obtain ⟨js, hjs, hlists⟩ := Space.exists_forget_table his hids
  refine ⟨js, hjs, mem_support_iff.trans ?_⟩
  simp only [hlists _, his _, mem_forget hids]
  constructor
  · rintro ⟨i, hi, j, hj, hout, hij⟩
    exact ⟨j, ⟨hj, i, hi, hij.symm⟩, hout⟩
  · rintro ⟨j, ⟨hj, i, hi, hji⟩, hout⟩
    exact ⟨i, hi, j, hj, hout, hji.symm⟩

/-- What is forgotten leaves the support. -/
example :
    let s : StateSet bits := .literal ⟨0⟩ 1 ∩ .literal ⟨3⟩ 0
    s.support = [⟨0⟩, ⟨3⟩] ∧ (s.forget [⟨3⟩]).support = [⟨0⟩] := by decide +kernel

end JusticeViolation.StateSet

import JusticeViolation.Proofs.Checked.Index
import JusticeViolation.Proofs.Game.Solution

/-!
# Quantifiers as projections

Copies are quantified one after another, each step spreading a set along one axis. What comes out is
what a single step along all axes at once would give: the valuations that agree with a member
outside the quantified copies, or those all of whose variants there are members. Agreement outside a
list asks for nothing but which copies are in the list, so neither their order shows nor how often
each is named; and as agreement is symmetric, it does not matter which of two sets is spread before
they are compared.

The same holds where a set is kept as a collection of indices and quantification stops early once
nothing is left.
-/

namespace JusticeViolation

theorem Space.agreeOff_congr {sp : Space} {xs ys : List VarId} (h : ∀ x, x ∈ ys ↔ x ∈ xs)
    {i j : Nat} : sp.AgreeOff ys i j ↔ sp.AgreeOff xs i j :=
  forall_congr' fun x ↦ imp_congr_left (not_congr (h x))

namespace StateSet

variable {sp : Space} {s t : StateSet sp} {xs ys : List VarId}

theorem meets_comm (s t : StateSet sp) : s.meets t = t.meets s := by
  rw [Bool.eq_iff_iff, meets_iff, meets_iff]
  exact exists_congr fun i ↦ and_comm

section Projection

variable (hxs : ∀ x ∈ xs, x ∈ sp.registry.ids)

include hxs

/-- Only which copies are quantified matters. -/
theorem forget_congr (h : ∀ x, x ∈ ys ↔ x ∈ xs) : s.forget ys = s.forget xs := by
  have hys : ∀ y ∈ ys, y ∈ sp.registry.ids := fun y hy ↦ hxs y ((h y).mp hy)
  refine ext_mem fun i ↦ ?_
  rw [mem_forget hys, mem_forget hxs]
  simp only [Space.agreeOff_congr h]

theorem always_congr (h : ∀ x, x ∈ ys ↔ x ∈ xs) : s.always ys = s.always xs := by
  rw [always, forget_congr hxs h, always]

/-- A spread set is met by what agrees with a member outside the quantified copies. -/
theorem meets_forget_iff :
    (s.forget xs).meets t = true ↔ ∃ i ∈ t, ∃ j ∈ s, sp.AgreeOff xs i j := by
  rw [meets_iff]
  constructor
  · rintro ⟨i, hi, hit⟩
    exact ⟨i, hit, ((mem_forget hxs).mp hi).2⟩
  · rintro ⟨i, hit, hi⟩
    exact ⟨i, (mem_forget hxs).mpr ⟨lt_size hit, hi⟩, hit⟩

/-- Which of two sets is spread does not matter. -/
theorem meets_forget (s t : StateSet sp) : (s.forget xs).meets t = s.meets (t.forget xs) := by
  rw [Bool.eq_iff_iff, meets_comm s, meets_forget_iff hxs, meets_forget_iff hxs]
  constructor
  · rintro ⟨i, hi, j, hj, hij⟩
    exact ⟨j, hj, i, hi, hij.symm⟩
  · rintro ⟨j, hj, i, hi, hji⟩
    exact ⟨i, hi, j, hj, hji.symm⟩

end Projection

/-- **Quantification is projection.** An existential quantifier yields the valuations that agree
with some member outside the quantified copies, a universal one those all of whose variants on these
copies are members. Their order and repetitions do not matter, nor which of two sets is quantified
before they are compared, and a collection of indices is quantified likewise. -/
theorem quantifiers_project (s t : StateSet sp) {xs : List VarId}
    (hxs : ∀ x ∈ xs, x ∈ sp.registry.ids) :
    (∀ i, i ∈ s.forget xs ↔ i < sp.size ∧ ∃ j ∈ s, sp.AgreeOff xs i j) ∧
    (∀ i, i ∈ s.always xs ↔ i < sp.size ∧ ∀ j, j < sp.size → sp.AgreeOff xs i j → j ∈ s) ∧
    (∀ ys, (∀ x, x ∈ ys ↔ x ∈ xs) → s.forget ys = s.forget xs ∧ s.always ys = s.always xs) ∧
    (s.forget xs).meets t = s.meets (t.forget xs) ∧
    ∀ is, s.ListedBy is →
      ∃ js, sp.table.forget is xs = .ok js ∧ (s.forget xs).ListedBy js :=
  ⟨fun _ ↦ mem_forget hxs, fun _ ↦ mem_always hxs,
    fun _ h ↦ ⟨forget_congr hxs h, always_congr hxs h⟩, meets_forget hxs s t,
    fun _ his ↦ Space.exists_forget_table his hxs⟩

/-- The step from `10` to `11` is none that leads to `10`. Whether the present is quantified away in
it or in these, in whatever order and however often, it meets none of them; it does once the next
value of the second bit is quantified, too. -/
theorem quantifiers_project_bits :
    let s : StateSet bits := .literal ⟨0⟩ 1 ∩ .literal ⟨2⟩ 0 ∩ .literal ⟨1⟩ 1 ∩ .literal ⟨3⟩ 1
    let t : StateSet bits := .literal ⟨1⟩ 1 ∩ .literal ⟨3⟩ 0
    s.forget [⟨2⟩, ⟨0⟩, ⟨2⟩] = s.forget [⟨0⟩, ⟨2⟩] ∧
      (s.forget [⟨0⟩, ⟨2⟩]).meets t = s.meets (t.forget [⟨0⟩, ⟨2⟩]) ∧
      s.meets (t.forget [⟨0⟩, ⟨2⟩]) = false ∧
      (s.forget [⟨0⟩, ⟨3⟩, ⟨2⟩]).meets t = s.meets (t.forget [⟨0⟩, ⟨3⟩, ⟨2⟩]) ∧
      s.meets (t.forget [⟨0⟩, ⟨3⟩, ⟨2⟩]) = true := by
  intro s t
  have hpresent : ∀ x ∈ ([⟨0⟩, ⟨2⟩] : List VarId), x ∈ bits.registry.ids := by decide
  have hnext : ∀ x ∈ ([⟨0⟩, ⟨3⟩, ⟨2⟩] : List VarId), x ∈ bits.registry.ids := by decide
  obtain ⟨-, -, hcongr, hmeets, -⟩ := quantifiers_project s t hpresent
  obtain ⟨-, -, -, hmeets', -⟩ := quantifiers_project s t hnext
  have hsame : ∀ x : VarId, x ∈ [⟨2⟩, ⟨0⟩, ⟨2⟩] ↔ x ∈ ([⟨0⟩, ⟨2⟩] : List VarId) := fun x ↦ by
    simp only [List.mem_cons, List.not_mem_nil, or_false]
    tauto
  exact ⟨(hcongr _ hsame).1, hmeets, by decide +kernel, hmeets', by decide +kernel⟩

end StateSet

end JusticeViolation

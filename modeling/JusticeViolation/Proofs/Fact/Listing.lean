import JusticeViolation.Proofs.Fact
import JusticeViolation.Proofs.Game.Solution

/-!
# The list of facts

Nothing is missing from the facts of a set, nothing in them is false, and nothing is listed twice.
The filter by what membership depends on, which comes before any value is tried, hides no fixed
variable but those that have a single value anyway: a set that fixes a variable of two values is
neither empty nor indifferent to it.

A set without a member would fix every variable at every value. It has no facts.
-/

namespace JusticeViolation

namespace StateSet

variable {sp : Space} {s t : StateSet sp} {skip : List VarId}

/-- The current variables of several values outside `skip` that a set fixes, each with its value. -/
def fixed (s : StateSet sp) (skip : List VarId) : List (VarId × Nat) :=
  sp.registry.ids.filterMap fun x ↦
    if x.isPrimed = false ∧ x ∉ skip ∧ 1 < sp.domainSize x then (s.fixedValue? x).map (x, ·)
    else none

theorem mem_fixed_iff (hs : ∃ i, i ∈ s) {x : VarId} {v : Nat} :
    (x, v) ∈ s.fixed skip ↔ x ∈ sp.registry.currentIds ∧ x ∉ skip ∧ 1 < sp.domainSize x ∧
      s.Fixes x v := by
  rw [fixed, List.mem_filterMap, Registry.mem_currentIds]
  simp only [Option.ite_none_right_eq_some, Option.map_eq_some_iff, Prod.mk.injEq]
  constructor
  · rintro ⟨y, hy, ⟨hcurrent, hskip, hsize⟩, w, hw, rfl, rfl⟩
    exact ⟨⟨hy, hcurrent⟩, hskip, hsize, (fixedValue?_eq_some_iff hs hy).mp hw⟩
  · rintro ⟨⟨hx, hcurrent⟩, hskip, hsize, hv⟩
    exact ⟨x, hx, ⟨hcurrent, hskip, hsize⟩, v, (fixedValue?_eq_some_iff hs hx).mpr hv, rfl, rfl⟩

theorem pairwise_fixed (s : StateSet sp) (skip : List VarId) :
    (s.fixed skip).Pairwise fun p q ↦ p.1.index < q.1.index := by
  refine List.Pairwise.filterMap _ (fun x y hxy p hp q hq ↦ ?_) sp.registry.pairwise_ids
  rw [Option.ite_none_right_eq_some, Option.map_eq_some_iff] at hp hq
  obtain ⟨-, v, -, rfl⟩ := hp
  obtain ⟨-, w, -, rfl⟩ := hq
  exact hxy

theorem facts_eq_map_fixed (hs : ∃ i, i ∈ s) (skip : List VarId) :
    s.facts skip = (s.fixed skip).map fun p ↦ factOf sp p.1 p.2 := by
  rw [facts_eq_filterMap hs, fixed, List.map_filterMap]
  refine List.filterMap_congr fun x _ ↦ ?_
  rw [fact?, apply_ite (Option.map _), Option.map_map, Option.map_none]
  rfl

/-- No two facts are about one variable. -/
theorem nodup_names_facts (hs : ∃ i, i ∈ s) (skip : List VarId) :
    ((s.facts skip).map (·.name)).Nodup := by
  rw [facts_eq_map_fixed hs, List.map_map]
  refine List.pairwise_map.mpr ((pairwise_fixed s skip).imp_of_mem ?_)
  rintro ⟨x, v⟩ ⟨y, w⟩ hx hy hlt hname
  obtain ⟨hx, -⟩ := sp.registry.mem_currentIds.mp ((mem_fixed_iff hs).mp hx).1
  obtain ⟨hy, -⟩ := sp.registry.mem_currentIds.mp ((mem_fixed_iff hs).mp hy).1
  obtain rfl : x = y := Registry.eq_of_name_eq hx hy hname
  exact Nat.lt_irrefl _ hlt

/-- The facts of a union are those of one part that the other shares. -/
theorem facts_union (hs : ∃ i, i ∈ s) (ht : ∃ i, i ∈ t) (skip : List VarId) :
    (s ∪ t).facts skip = (s.facts skip).filter ((t.facts skip).contains ·) := by
  have hshared : ∀ f, ((s.facts skip).contains f && (t.facts skip).contains f) = true ↔
      ∀ u, u = s ∨ u = t → f ∈ u.facts skip := fun f ↦ by
    simp only [Bool.and_eq_true, List.contains_iff_mem, forall_eq_or_imp, forall_eq]
  rw [facts_eq_filter (fun u ↦ u = s ∨ u = t) (Or.inl rfl) (fun i ↦ ?_) (fun u hu ↦ ?_) hshared]
  · refine List.filter_congr fun f hf ↦ ?_
    rw [List.contains_iff_mem.mpr hf, Bool.true_and]
  · simp only [mem_union, or_and_right, exists_or, exists_eq_left]
  · rcases hu with rfl | rfl
    · exact hs
    · exact ht

/-- **The facts of a set, no more and no less.** A set without a member has none. The facts of a set
with a member are listed in the order of the registry, one for each variable at most: those of the
current variables outside `skip` that have several values, and the same one in every member. So the
facts of a union are the facts of one part that the other shares. -/
theorem facts_exact (s : StateSet sp) (skip : List VarId) :
    ((∀ i, i ∉ s) → s.facts skip = []) ∧
    ((∃ i, i ∈ s) → ((s.facts skip).map (·.name)).Nodup ∧ ∃ fixed : List (VarId × Nat),
      s.facts skip =
        fixed.map (fun (x, v) ↦ ⟨sp.registry.name x, sp.registry.valueName x v⟩) ∧
      (fixed.Pairwise fun p q ↦ p.1.index < q.1.index) ∧
      ∀ x v, (x, v) ∈ fixed ↔ x ∈ sp.registry.currentIds ∧ x ∉ skip ∧
        2 ≤ sp.registry.domainSize x ∧ ∀ i ∈ s, sp.digit i x = v) ∧
    ∀ t : StateSet sp, (∃ i, i ∈ s) → (∃ i, i ∈ t) →
      (s ∪ t).facts skip = (s.facts skip).filter ((t.facts skip).contains ·) := by
  refine ⟨fun hempty ↦ ?_, fun hs ↦ ?_, fun t hs ht ↦ facts_union hs ht skip⟩
  · rw [facts, isEmpty_iff.mpr hempty, if_pos rfl]
  · refine ⟨nodup_names_facts hs skip, s.fixed skip, facts_eq_map_fixed hs skip,
      pairwise_fixed s skip, fun x v ↦ ?_⟩
    rw [mem_fixed_iff hs]
    refine and_congr_right fun hx ↦ ?_
    rw [← Space.length_values (sp.registry.mem_currentIds.mp hx).1]
    rfl

/-- In the state `10` both bits are fixed, in the union with `11` the first is. -/
theorem facts_exact_bits :
    let s : StateSet bits := .literal ⟨0⟩ 1 ∩ .literal ⟨2⟩ 0
    let t : StateSet bits := .literal ⟨0⟩ 1 ∩ .literal ⟨2⟩ 1
    (s ∪ t).facts [⟨4⟩] = (s.facts [⟨4⟩]).filter ((t.facts [⟨4⟩]).contains ·) ∧
      s.facts [⟨4⟩] = [⟨"e", "true"⟩, ⟨"s", "false"⟩] ∧ (s ∪ t).facts [⟨4⟩] = [⟨"e", "true"⟩] := by
  intro s t
  obtain ⟨-, -, hunion⟩ := facts_exact s [⟨4⟩]
  exact ⟨hunion t ⟨1, by decide +kernel⟩ ⟨5, by decide +kernel⟩, by decide +kernel,
    by decide +kernel⟩

end StateSet

end JusticeViolation

import Mathlib.Data.List.Nodup
import JusticeViolation.Proofs.Space.Digits

/-!
# Names of copies and of values

A look-up by name finds the one copy that has the name. That there is only one rests on two things:
declared names are distinct, and none of them ends in a prime, so no current copy is called like a
next-state copy, its own or another. A value is found in the same way among the values of a copy.
-/

namespace JusticeViolation

/-- In a list without repetitions a position is as good as the member there. -/
theorem idxOf?_eq_some_iff_of_nodup {α : Type} [BEq α] [LawfulBEq α] {l : List α} (h : l.Nodup)
    {a : α} {k : Nat} : l.idxOf? a = some k ↔ l[k]? = some a := by
  rw [List.idxOf?_eq_some_iff, List.getElem?_eq_some_iff]
  refine exists_congr fun hk ↦ and_iff_left_of_imp fun hka j hj hja ↦ ?_
  have hjk : j = k := h.getElem_inj_iff.mp (hja.trans hka.symm)
  exact Nat.ne_of_lt hj hjk

/-! ## Names of variables -/

/-- A name that can be declared does not end in a prime. -/
theorem ne_append_prime {name other : String} (h : validName name = true) : name ≠ other ++ "'" := by
  rintro rfl
  rw [validName, String.toList_append] at h
  simp at h

theorem append_prime_inj {name other : String} (h : name ++ "'" = other ++ "'") : name = other := by
  have hlist := congrArg String.toList h
  rw [String.toList_append, String.toList_append] at hlist
  exact String.toList_injective (List.append_cancel_right hlist)

namespace Registry

variable {r : Registry} {x : VarId}

theorem pairwise_ids (r : Registry) : r.ids.Pairwise fun x y ↦ x.index < y.index :=
  List.pairwise_map.mpr List.pairwise_lt_range

theorem nodup_ids (r : Registry) : r.ids.Nodup :=
  r.pairwise_ids.imp fun hlt heq ↦ Nat.ne_of_lt hlt (congrArg VarId.index heq)

theorem getElem?_names (r : Registry) (k : Nat) :
    r.names[k]? = (r.declared[k / 2]?).map fun v ↦ if k % 2 = 1 then v.primedName else v.name := by
  unfold names
  induction r.declared generalizing k with
  | nil => simp
  | cons v vs ih =>
    match k with
    | 0 => simp
    | 1 => simp
    | k + 2 =>
      have hdiv : (k + 2) / 2 = k / 2 + 1 := by omega
      rw [List.flatMap_cons, hdiv, List.getElem?_cons_succ, Nat.add_mod_right, ← ih k]
      simp

/-- The name of a copy stands at its number. -/
theorem getElem?_names_eq_some_iff {name : String} :
    r.names[x.index]? = some name ↔ x ∈ r.ids ∧ r.name x = name := by
  rw [getElem?_names, mem_ids, Registry.name, declaration?, VarId.isPrimed, length]
  cases hv : r.declared[x.index / 2]? with
  | none =>
    have hle := List.getElem?_eq_none_iff.mp hv
    simp only [Option.map_none, reduceCtorEq, false_iff, not_and]
    omega
  | some v =>
    obtain ⟨hlt, -⟩ := List.getElem?_eq_some_iff.mp hv
    simp only [Option.map_some, Option.some.injEq, beq_iff_eq]
    exact (and_iff_right (by omega)).symm

/-- **All copies have different names.** -/
theorem nodup_names_copies (r : Registry) : r.names.Nodup := by
  rw [names, List.nodup_flatMap]
  refine ⟨fun v _ ↦ ?_, ?_⟩
  · rw [List.nodup_cons, List.mem_singleton]
    exact ⟨ne_append_prime v.validName_name, List.nodup_singleton _⟩
  · refine (List.pairwise_map.mp r.nodup_names).imp fun {v w} hne ↦ ?_
    intro name hv hw
    simp only [List.mem_cons, List.not_mem_nil, or_false] at hv hw
    rcases hv with rfl | rfl <;> rcases hw with hw | hw
    · exact hne hw
    · exact ne_append_prime v.validName_name hw
    · exact ne_append_prime w.validName_name hw.symm
    · exact hne (append_prime_inj hw)

/-- **A look-up finds the copy of a name.** -/
theorem lookup?_eq_some_iff {name : String} :
    r.lookup? name = some x ↔ x ∈ r.ids ∧ r.name x = name := by
  rw [lookup?, Option.map_eq_some_iff, ← getElem?_names_eq_some_iff]
  constructor
  · rintro ⟨k, hk, rfl⟩
    exact (idxOf?_eq_some_iff_of_nodup r.nodup_names_copies).mp hk
  · exact fun h ↦ ⟨x.index, (idxOf?_eq_some_iff_of_nodup r.nodup_names_copies).mpr h, rfl⟩

theorem lookup?_eq_none_iff {name : String} :
    r.lookup? name = none ↔ ∀ x ∈ r.ids, r.name x ≠ name := by
  rw [Option.eq_none_iff_forall_not_mem]
  simp only [Option.mem_def, lookup?_eq_some_iff, not_and, Ne]

/-- A name stands for one copy. -/
theorem eq_of_name_eq {y : VarId} (hx : x ∈ r.ids) (hy : y ∈ r.ids) (h : r.name x = r.name y) :
    x = y :=
  Option.some.inj ((lookup?_eq_some_iff.mpr ⟨hx, h⟩).symm.trans (lookup?_eq_some_iff.mpr ⟨hy, rfl⟩))

theorem require_eq_ok (hx : x ∈ r.ids) : r.require (r.name x) = .ok x := by
  rw [require, lookup?_eq_some_iff.mpr ⟨hx, rfl⟩]

theorem require_eq_error {name : String} (h : ∀ x ∈ r.ids, r.name x ≠ name) :
    r.require name = .error (.unknownVariable name) := by
  rw [require, lookup?_eq_none_iff.mpr h]

/-! ## Names of values -/

theorem nodup_values (r : Registry) (x : VarId) : (r.values x).Nodup := by
  unfold values
  cases r.declaration? x with
  | none => exact .nil
  | some v => exact v.nodup_values

theorem valueIndex?_eq_some_iff {value : String} {k : Nat} :
    r.valueIndex? x value = some k ↔ (r.values x)[k]? = some value :=
  idxOf?_eq_some_iff_of_nodup (r.nodup_values x)

theorem valueIndex?_eq_none_iff {value : String} :
    r.valueIndex? x value = none ↔ value ∉ r.values x := List.idxOf?_eq_none_iff

/-- The value at a position, by name. -/
theorem getElem?_values_eq_some_iff {k : Nat} (hk : k < (r.values x).length) {value : String} :
    (r.values x)[k]? = some value ↔ r.valueName x k = value := by
  rw [valueName, List.getD_eq_getElem?_getD, List.getElem?_eq_getElem hk, Option.getD_some,
    Option.some.injEq]

/-- Different values of a copy have different names. -/
theorem valueName_inj {v w : Nat} (hv : v < (r.values x).length) (hw : w < (r.values x).length)
    (h : r.valueName x v = r.valueName x w) : v = w := by
  rw [valueName, valueName, List.getD_eq_getElem _ _ hv, List.getD_eq_getElem _ _ hw] at h
  exact (r.nodup_values x).getElem_inj_iff.mp h

end Registry

/-- A copy has as many values as names for them. -/
theorem Space.length_values {sp : Space} {x : VarId} (hx : x ∈ sp.registry.ids) :
    (sp.registry.values x).length = sp.domainSize x := by
  rw [Registry.mem_ids, Registry.length] at hx
  have hlt : x.index / 2 < sp.registry.declared.length := by omega
  rw [Registry.values, Registry.declaration?, domainSize, sp.sizes_eq, Registry.getD_sizes,
    List.getElem?_eq_getElem hlt]
  rfl

end JusticeViolation

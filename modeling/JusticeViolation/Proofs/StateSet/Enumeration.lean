import Mathlib.Data.List.Sort
import JusticeViolation.Proofs.Game.Solution
import JusticeViolation.Proofs.StateSet.Counting
import JusticeViolation.Proofs.StateSet.Sample

/-!
# Enumerating valuations

Valuations of some copies are listed one by one: the least member is read, and with it all members
are removed that read the same. Of the members that read the same the least one is the *leader*. The
leaders of a set, in ascending order, are what enumeration meets: the least member is a leader, and
what is removed with it are the members that it leads, so that the other leaders remain and no
member becomes one. The readings that are listed are therefore those of the first leaders, and if
the limit is not reached, those of all of them.

There are as many leaders as a count finds, since both count readings.
-/

namespace JusticeViolation.StateSet

variable {sp : Space} {s : StateSet sp} {xs : List VarId} {limit : Nat}

theorem least?_eq_none_iff : s.least? = none ↔ ∀ i, i ∉ s := by
  rw [← isEmpty_iff, isEmpty, least?, Mask.least?, beq_iff_eq]
  split <;> simp [*]

/-! ## Leaders -/

/-- The members that read on `xs` as no smaller member does, in ascending order. -/
def leaders (s : StateSet sp) (xs : List VarId) : List Nat :=
  (List.range sp.size).filter fun i ↦ i ∈ s ∧ ∀ j < i, j ∈ s → sp.digits j xs ≠ sp.digits i xs

/-- What members read on `xs`, in the order of the least members that do. -/
def readings (s : StateSet sp) (xs : List VarId) : List (List Nat) :=
  (s.leaders xs).map fun i ↦ sp.digits i xs

theorem mem_leaders {i : Nat} :
    i ∈ s.leaders xs ↔ i ∈ s ∧ ∀ j ∈ s, sp.digits j xs = sp.digits i xs → i ≤ j := by
  rw [leaders, List.mem_filter, List.mem_range, decide_eq_true_iff]
  constructor
  · rintro ⟨-, hi, hleast⟩
    refine ⟨hi, fun j hj heq ↦ ?_⟩
    by_contra hlt
    exact hleast j (Nat.not_le.mp hlt) hj heq
  · rintro ⟨hi, hleast⟩
    exact ⟨lt_size hi, hi, fun j hlt hj heq ↦ Nat.not_le.mpr hlt (hleast j hj heq)⟩

theorem pairwise_leaders (s : StateSet sp) (xs : List VarId) : (s.leaders xs).Pairwise (· < ·) :=
  List.pairwise_lt_range.filter _

/-- Two leaders never read the same. -/
theorem eq_of_digits_eq {i j : Nat} (hi : i ∈ s.leaders xs) (hj : j ∈ s.leaders xs)
    (h : sp.digits i xs = sp.digits j xs) : i = j := by
  rw [mem_leaders] at hi hj
  exact Nat.le_antisymm (hi.2 j hj.1 h.symm) (hj.2 i hi.1 h)

/-- Every member is led. -/
theorem exists_leader {i : Nat} (hi : i ∈ s) :
    ∃ k ∈ s.leaders xs, sp.digits k xs = sp.digits i xs := by
  have hex : ∃ k, k ∈ s ∧ sp.digits k xs = sp.digits i xs := ⟨i, hi, rfl⟩
  obtain ⟨hmem, hdigits⟩ := Nat.find_spec hex
  refine ⟨Nat.find hex, mem_leaders.mpr ⟨hmem, fun j hj heq ↦ ?_⟩, hdigits⟩
  exact Nat.find_min' hex ⟨hj, heq.trans hdigits⟩

theorem mem_readings {values : List Nat} :
    values ∈ s.readings xs ↔ ∃ i ∈ s, sp.digits i xs = values := by
  rw [readings, List.mem_map]
  constructor
  · rintro ⟨i, hi, rfl⟩
    exact ⟨i, (mem_leaders.mp hi).1, rfl⟩
  · rintro ⟨i, hi, rfl⟩
    exact exists_leader hi

theorem nodup_readings (s : StateSet sp) (xs : List VarId) : (s.readings xs).Nodup := by
  refine List.Nodup.map_on (fun i hi j hj heq ↦ eq_of_digits_eq hi hj heq) ?_
  exact (pairwise_leaders s xs).imp Nat.ne_of_lt

/-- A count finds as many readings as there are. -/
theorem length_readings (s : StateSet sp) (xs : List VarId) :
    (s.readings xs).length = s.count xs := by
  rw [count_eq, ← List.toFinset_card_of_nodup (nodup_readings s xs)]
  refine congrArg Finset.card (Finset.ext fun values ↦ ?_)
  rw [List.mem_toFinset, mem_readings, mem_projection]

/-! ## Rounds -/

/-- **One round** of enumeration takes the first leader, and the others remain. -/
theorem leaders_eq_cons (hxs : ∀ x ∈ xs, x ∈ sp.registry.ids) {i : Nat} (hi : s.least? = some i) :
    s.leaders xs = i :: (s \ cube (xs.zip (sp.digits i xs))).leaders xs := by
  have his : i ∈ s := Mask.testBit_of_least?_eq_some hi
  have hleast : ∀ j ∈ s, i ≤ j := fun j hj ↦ Mask.le_of_least?_eq_some hi hj
  have hrest : ∀ j, j ∈ s \ cube (xs.zip (sp.digits i xs)) ↔
      j ∈ s ∧ sp.digits j xs ≠ sp.digits i xs := fun j ↦ by
    rw [mem_sdiff, mem_cube_digits hxs, ← Space.digits_eq_iff]
    exact and_congr_right fun hj ↦ not_congr (and_iff_right (lt_size hj))
  refine (pairwise_leaders s xs).eq_of_mem_iff (List.pairwise_cons.mpr
    ⟨fun j hj ↦ ?_, pairwise_leaders _ xs⟩) fun j ↦ ?_
  · obtain ⟨hjs, hne⟩ := (hrest j).mp (mem_leaders.mp hj).1
    exact Nat.lt_of_le_of_ne (hleast j hjs) fun heq ↦ hne (heq ▸ rfl)
  · rw [List.mem_cons, mem_leaders, mem_leaders, hrest]
    constructor
    · rintro ⟨hjs, hlead⟩
      by_cases heq : sp.digits j xs = sp.digits i xs
      · exact Or.inl (Nat.le_antisymm (hlead i his heq.symm) (hleast j hjs))
      · exact Or.inr ⟨⟨hjs, heq⟩, fun k hk ↦ hlead k ((hrest k).mp hk).1⟩
    · rintro (rfl | ⟨⟨hjs, hne⟩, hlead⟩)
      · exact ⟨his, fun k hk _ ↦ hleast k hk⟩
      · -- who reads like `j` is not removed
        exact ⟨hjs, fun k hk heq ↦ hlead k ((hrest k).mpr ⟨hk, heq ▸ hne⟩) heq⟩

/-- **Enumeration lists the readings in order**, up to the limit. -/
theorem enumerate_eq_take (hxs : ∀ x ∈ xs, x ∈ sp.registry.ids) (s : StateSet sp) (limit : Nat) :
    s.enumerate xs limit = (s.readings xs).take limit := by
  induction limit generalizing s with
  | zero => rw [enumerate, List.take_zero]
  | succ limit ih =>
    rw [enumerate]
    cases hleast : s.least? with
    | none =>
      have hempty := least?_eq_none_iff.mp hleast
      have hreadings : s.readings xs = [] := List.eq_nil_iff_forall_not_mem.mpr fun values h ↦ by
        obtain ⟨i, hi, -⟩ := mem_readings.mp h
        exact hempty i hi
      rw [sample?, hleast, hreadings]
      rfl
    | some i =>
      rw [sample?, hleast, readings, leaders_eq_cons hxs hleast, List.map_cons, List.take_succ_cons]
      exact congrArg (sp.digits i xs :: ·) (ih _)

/-- Only what extends to a member is listed. -/
theorem mem_projection_of_mem_enumerate (hxs : ∀ x ∈ xs, x ∈ sp.registry.ids) {values : List Nat}
    (h : values ∈ s.enumerate xs limit) : values ∈ s.projection xs := by
  rw [enumerate_eq_take hxs] at h
  exact mem_projection.mpr (mem_readings.mp (List.mem_of_mem_take h))

/-- Nothing is listed twice. -/
theorem nodup_enumerate (hxs : ∀ x ∈ xs, x ∈ sp.registry.ids) (s : StateSet sp) (limit : Nat) :
    (s.enumerate xs limit).Nodup := by
  rw [enumerate_eq_take hxs]
  exact (nodup_readings s xs).sublist (List.take_sublist _ _)

/-- As many are listed as there are, up to the limit. -/
theorem length_enumerate (hxs : ∀ x ∈ xs, x ∈ sp.registry.ids) (s : StateSet sp) (limit : Nat) :
    (s.enumerate xs limit).length = min limit (s.count xs) := by
  rw [enumerate_eq_take hxs, List.length_take, length_readings]

/-- **Enumeration and counting agree.** What is listed are the first of the readings, as many as the
limit allows and a count finds. The readings are those of the members, each once, in the order of
their leaders, and the division that counts them leaves no rest. -/
theorem enumerate_exact (s : StateSet sp) {xs : List VarId} (hxs : ∀ x ∈ xs, x ∈ sp.registry.ids) :
    (∀ limit, s.enumerate xs limit = (s.readings xs).take (min limit (s.count xs))) ∧
    (s.readings xs = (s.leaders xs).map (fun i ↦ sp.digits i xs) ∧
      (s.leaders xs).Pairwise (· < ·) ∧
      ∀ i, i ∈ s.leaders xs ↔ i ∈ s ∧ ∀ j ∈ s, sp.digits j xs = sp.digits i xs → i ≤ j) ∧
    ((s.readings xs).Nodup ∧
      ∀ values, values ∈ s.readings xs ↔ ∃ i ∈ s, sp.digits i xs = values) ∧
    s.count xs = (s.readings xs).length ∧
    let others := sp.registry.ids.filter fun x ↦ !xs.contains x
    (s.forget others).card = s.count xs * volume (others.map sp.domainSize) := by
  refine ⟨fun limit ↦ ?_, ⟨rfl, pairwise_leaders s xs, fun _ ↦ mem_leaders⟩,
    ⟨nodup_readings s xs, fun _ ↦ mem_readings⟩, (length_readings s xs).symm, ?_⟩
  · rw [enumerate_eq_take hxs, ← length_readings, ← List.take_eq_take_min]
  · rw [count_eq]
    exact card_forget s (sp.registry.nodup_ids.filter _) fun _ ↦ mem_filter_not_contains

/-- A set read on a bit, the next value of the other and the first bit again: `101` stands before
`000`, because the least member that reads so does. -/
theorem enumerate_exact_bits :
    let s : StateSet bits := .literal ⟨0⟩ 1 ∩ (.literal ⟨2⟩ 1 ∪ .literal ⟨3⟩ 1)
    s.enumerate [⟨2⟩, ⟨1⟩, ⟨2⟩] 3 =
        (s.readings [⟨2⟩, ⟨1⟩, ⟨2⟩]).take (min 3 (s.count [⟨2⟩, ⟨1⟩, ⟨2⟩])) ∧
      s.enumerate [⟨2⟩, ⟨1⟩, ⟨2⟩] 3 = [[1, 0, 1], [1, 1, 1], [0, 0, 0]] ∧
      s.count [⟨2⟩, ⟨1⟩, ⟨2⟩] = 4 ∧
      (s.forget [⟨0⟩, ⟨3⟩, ⟨4⟩, ⟨5⟩]).card = s.count [⟨2⟩, ⟨1⟩, ⟨2⟩] * 16 := by
  intro s
  have hxs : ∀ x ∈ ([⟨2⟩, ⟨1⟩, ⟨2⟩] : List VarId), x ∈ bits.registry.ids := by decide
  obtain ⟨henumerate, -, -, -, hcard⟩ := enumerate_exact s hxs
  exact ⟨henumerate 3, by decide +kernel, by decide +kernel, hcard⟩

end JusticeViolation.StateSet

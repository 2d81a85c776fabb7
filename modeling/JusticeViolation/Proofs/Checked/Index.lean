import JusticeViolation.Proofs.Checked.Words
import JusticeViolation.Proofs.StateSet.Symmetry

/-!
# Indices stay in range

Index arithmetic never leaves its words, and the indices it computes are those of the masks. What
bounds all intermediate numbers is that the stride of a copy times its size divides the number of
valuations. A digit times its stride is therefore less than that number, blocks fill the index space
without a rest, and a difference of two digits is bounded like a digit.

Priming adds one such difference after another, for any number of variables, so it is not enough
that each is small. But exchanging the twins of one variable leads from a valuation to a valuation.
What has been added up after some variables is the index of one, and the digits at which later
variables are changed are still those of the index that priming began with.
-/

namespace JusticeViolation

open Checked

/-! ## What bounds a digit -/

namespace Space

variable {sp : Space} {i : Nat} {x : VarId}

theorem stride_pos (sp : Space) (x : VarId) : 0 < sp.stride x := by
  rw [stride, volume_eq_prod]
  refine List.prod_pos fun n hn ↦ ?_
  exact Registry.pos_of_mem_sizes (sp.sizes_eq ▸ List.mem_of_mem_take hn)

/-- **A stride times the size divides the number of valuations.** -/
theorem stride_mul_domainSize_dvd (hx : x ∈ sp.registry.ids) :
    sp.stride x * sp.domainSize x ∣ sp.size := by
  rw [Registry.mem_ids, ← length_sizes] at hx
  rw [stride, domainSize, sp.size_eq, volume_eq_prod, volume_eq_prod,
    List.getD_eq_getElem _ _ hx, ← List.prod_take_succ _ _ hx]
  exact ⟨_, (List.prod_take_mul_prod_drop _ _).symm⟩

theorem size_pos (sp : Space) : 0 < sp.size := by
  rw [sp.size_eq, volume_eq_prod]
  exact List.prod_pos fun n hn ↦ Registry.pos_of_mem_sizes (sp.sizes_eq ▸ hn)

theorem size_lt_word (sp : Space) : sp.size < 2 ^ 32 := Nat.lt_of_le_of_lt sp.size_le (by decide)

/-- A value times its stride stays below the number of valuations by a stride at least. -/
theorem mul_stride_add_stride_le {value : Nat} (hx : x ∈ sp.registry.ids)
    (hv : value < sp.domainSize x) : value * sp.stride x + sp.stride x ≤ sp.size :=
  calc value * sp.stride x + sp.stride x = sp.stride x * (value + 1) := by ring
    _ ≤ sp.stride x * sp.domainSize x := Nat.mul_le_mul_left _ hv
    _ ≤ sp.size := Nat.le_of_dvd sp.size_pos (stride_mul_domainSize_dvd hx)

theorem stride_le_size (hx : x ∈ sp.registry.ids) : sp.stride x ≤ sp.size := by
  have := mul_stride_add_stride_le hx (sp.domainSize_pos x)
  omega

theorem lookup_strides (hx : x ∈ sp.registry.ids) :
    lookup sp.table.strides x.index = .ok (sp.stride x) := by
  refine lookup_eq_ok ?_
  rw [Registry.mem_ids] at hx
  rw [table, Registry.ids, List.map_map, List.getElem?_map, List.getElem?_range hx]
  rfl

theorem lookup_sizes (hx : x ∈ sp.registry.ids) :
    lookup sp.table.sizes x.index = .ok (sp.domainSize x) := checkedSize_eq hx

/-- **Digits are read in range.** -/
theorem digit_table (i : Nat) (hx : x ∈ sp.registry.ids) :
    sp.table.digit i x = .ok (sp.digit i x) := by
  rw [IndexTable.digit, lookup_strides hx, ok_bind, lookup_sizes hx, ok_bind,
    quotient_of_pos (sp.stride_pos x), ok_bind, remainder_of_pos (sp.domainSize_pos x)]
  rfl

end Space

/-! ## Literals -/

/-- A digit, read off the place within a block. -/
private theorem div_mod_eq_iff {stride size value q r : Nat} (hstride : 0 < stride)
    (hr : r < stride * size) : (stride * size * q + r) / stride % size = value ↔
      value * stride ≤ r ∧ r < value * stride + stride := by
  rw [Nat.mul_assoc, Nat.mul_add_div hstride, Nat.mul_add_mod,
    Nat.mod_eq_of_lt (Nat.div_lt_of_lt_mul hr), Nat.div_eq_iff hstride]
  omega

/-- Ranges of indices, none of them empty, that hold what has a property and stay below a bound. -/
def Ranges (rs : List (Nat × Nat)) (bound : Nat) (p : Nat → Prop) : Prop :=
  (∀ r ∈ rs, r.1 < r.2 ∧ r.2 ≤ bound) ∧ ∀ i, (∃ r ∈ rs, r.1 ≤ i ∧ i < r.2) ↔ p i

/-- Block by block, the ranges hold the indices with the given digit. -/
theorem IndexTable.ranges_eq_ok {t : IndexTable} {value stride size rounds base : Nat}
    (hstride : 0 < stride) (hv : value < size) (hfit : t.total < 2 ^ 32)
    (htotal : stride * size ∣ t.total) (hbase : stride * size ∣ base) (hle : base ≤ t.total)
    (hrounds : t.total - base < rounds) :
    ∃ rs, t.ranges value stride (stride * size) rounds base = .ok rs ∧
      Ranges rs t.total fun i ↦ base ≤ i ∧ i < t.total ∧ i / stride % size = value := by
  induction rounds generalizing base with
  | zero => exact absurd hrounds (Nat.not_lt_zero _)
  | succ rounds ih =>
    by_cases hlt : base < t.total
    · have hblock : 0 < stride * size := Nat.mul_pos hstride (by omega)
      have hvalue : value * stride + stride ≤ stride * size :=
        calc value * stride + stride = stride * (value + 1) := by ring
          _ ≤ stride * size := Nat.mul_le_mul_left _ hv
      -- a block that begins below the end lies below it as a whole
      have hnext : base + stride * size ≤ t.total := by
        have hdvd : stride * size ∣ t.total - base := Nat.dvd_sub htotal hbase
        have := Nat.le_of_dvd (by omega) hdvd
        omega
      obtain ⟨rs, hrs, hbound, hmem⟩ := ih (Nat.dvd_add hbase (dvd_refl _)) hnext (by omega)
      refine ⟨(base + value * stride, base + value * stride + stride) :: rs, ?_, ?_, fun i ↦ ?_⟩
      · rw [ranges, if_pos hlt, word_of_lt (by omega), ok_bind, word_of_lt (by omega), ok_bind,
          word_of_lt (by omega), ok_bind, word_of_lt (by omega), ok_bind, word_of_lt (by omega),
          ok_bind, word_of_lt (by omega), ok_bind, hrs]
        rfl
      · rw [List.forall_mem_cons]
        exact ⟨⟨by omega, by omega⟩, hbound⟩
      · rw [List.exists_mem_cons_iff, hmem]
        dsimp only
        obtain ⟨q, rfl⟩ := hbase
        by_cases hin : stride * size * q ≤ i ∧ i < stride * size * q + stride * size
        · obtain ⟨r, rfl⟩ := Nat.exists_eq_add_of_le hin.1
          rw [div_mod_eq_iff hstride (by omega)]
          omega
        · constructor
          · rintro (h | h)
            · omega
            · exact ⟨by omega, h.2⟩
          · rintro ⟨h, h'⟩
            exact Or.inr ⟨by omega, h'⟩
    · refine ⟨[], by rw [ranges, if_neg hlt]; rfl, by simp, fun i ↦ ?_⟩
      simp only [List.not_mem_nil, false_and, exists_false, false_iff, not_and]
      omega

/-- **Literals are computed in range.** -/
theorem Space.exists_literal_table {sp : Space} {x : VarId} (hx : x ∈ sp.registry.ids)
    (value : Nat) : ∃ rs, sp.table.literal x value = .ok rs ∧
      Ranges rs sp.size (· ∈ (StateSet.literal x value : StateSet sp)) := by
  have hfit := sp.size_lt_word
  have hdvd := stride_mul_domainSize_dvd hx
  simp only [IndexTable.literal, lookup_strides hx, lookup_sizes hx, ok_bind,
    StateSet.mem_literal hx]
  by_cases hv : value < sp.domainSize x
  · have hblock : sp.stride x * sp.domainSize x < 2 ^ 64 :=
      Nat.lt_of_le_of_lt (Nat.le_of_dvd sp.size_pos hdvd) (by omega)
    obtain ⟨rs, hrs, hbound, hmem⟩ := IndexTable.ranges_eq_ok (t := sp.table) (sp.stride_pos x) hv
      hfit hdvd (dvd_zero _) (Nat.zero_le _) (Nat.lt_succ_self _)
    rw [if_pos hv, word_of_lt hblock, ok_bind]
    refine ⟨rs, hrs, hbound, fun i ↦ ?_⟩
    exact (hmem i).trans (and_iff_right (Nat.zero_le i))
  · rw [if_neg hv]
    refine ⟨[], rfl, by simp, fun i ↦ ?_⟩
    have := sp.digit_lt i x
    simp only [List.not_mem_nil, false_and, exists_false, false_iff, not_and]
    omega

/-! ## Quantifiers -/

namespace StateSet

variable {sp : Space} {s : StateSet sp} {is : List Nat}

/-- The members of `s` are collected in `is`. -/
def ListedBy (s : StateSet sp) (is : List Nat) : Prop := ∀ i, i ∈ is ↔ i ∈ s

theorem ListedBy.lt_size (h : s.ListedBy is) : ∀ i ∈ is, i < sp.size :=
  fun i hi ↦ StateSet.lt_size ((h i).mp hi)

end StateSet

namespace Space

variable {sp : Space} {i : Nat} {x : VarId} {is : List Nat} {s : StateSet sp}

/-- Along the axis of a copy, all valuations are found from the one with the digit 0. -/
theorem exists_put_eq_add (hi : i < sp.size) (hx : x ∈ sp.registry.ids) :
    ∃ b, i = b + sp.digit i x * sp.stride x ∧
      ∀ value, value < sp.domainSize x → sp.put i x value = b + value * sp.stride x := by
  obtain ⟨b, hb, hbx, hby, hbi⟩ := exists_base hi hx
  refine ⟨b, hbi, fun value hv ↦ ?_⟩
  rw [add_stride_eq_put hb hx, hbx, Nat.zero_add]
  refine eq_of_digit_eq (put_lt hv) (put_lt hv) fun y ↦ ?_
  by_cases hy : y = x
  · rw [hy, digit_put_self hv, digit_put_self hv]
  · rw [digit_put_of_ne hv hy, digit_put_of_ne hv hy, hby y hy]

/-- **The variants of an index are computed in range.** -/
theorem variants_table (hi : i < sp.size) (hx : x ∈ sp.registry.ids) :
    sp.table.variants x i = .ok ((List.range (sp.domainSize x)).map (sp.put i x)) := by
  have hfit := sp.size_lt_word
  obtain ⟨b, hib, hput⟩ := exists_put_eq_add hi hx
  have hoffset : i - sp.digit i x * sp.stride x = b := by omega
  rw [IndexTable.variants, lookup_strides hx, ok_bind, lookup_sizes hx, ok_bind,
    digit_table i hx, ok_bind, word_of_lt (by omega), ok_bind, minus_of_le (by omega), ok_bind,
    hoffset]
  refine mapM_eq_ok fun value hvalue ↦ ?_
  have hv : value < sp.domainSize x := List.mem_range.mp hvalue
  have hlt : b + value * sp.stride x < sp.size := hput value hv ▸ put_lt hv
  rw [word_of_lt (by omega), ok_bind, word_of_lt (by omega), ok_bind, word_of_lt (by omega),
    hput value hv]

theorem mem_map_put_iff {j : Nat} :
    j ∈ (List.range (sp.domainSize x)).map (sp.put i x) ↔ j < sp.size ∧ sp.AgreeOff [x] j i := by
  rw [List.mem_map]
  constructor
  · rintro ⟨value, hvalue, rfl⟩
    have hv : value < sp.domainSize x := List.mem_range.mp hvalue
    exact ⟨put_lt hv, fun y hy ↦ digit_put_of_ne hv fun h ↦ hy (List.mem_singleton.mpr h)⟩
  · rintro ⟨hj, hji⟩
    have hv := sp.digit_lt j x
    refine ⟨sp.digit j x, List.mem_range.mpr hv, eq_of_digit_eq (put_lt hv) hj fun y ↦ ?_⟩
    by_cases hy : y = x
    · rw [hy, digit_put_self hv]
    · rw [digit_put_of_ne hv hy, hji y fun h ↦ hy (List.mem_singleton.mp h)]

theorem exists_forgetOne_table (his : s.ListedBy is) (hx : x ∈ sp.registry.ids) :
    ∃ js, sp.table.forgetOne is x = .ok js ∧ (s.forgetOne x).ListedBy js := by
  have hvariants : ∀ i ∈ is, sp.table.variants x i = .ok _ := fun i hi ↦
    variants_table (his.lt_size i hi) hx
  refine ⟨_, by rw [IndexTable.forgetOne, mapM_eq_ok hvariants]; rfl, fun j ↦ ?_⟩
  rw [StateSet.mem_forgetOne hx, List.mem_flatten]
  constructor
  · rintro ⟨js, hjs, hj⟩
    obtain ⟨i, hi, rfl⟩ := List.mem_map.mp hjs
    have his' := (his i).mp hi
    obtain ⟨hlt, hagree⟩ := mem_map_put_iff.mp hj
    exact ⟨hlt, i, his', hagree⟩
  · rintro ⟨hlt, i, hi, hagree⟩
    exact ⟨_, List.mem_map.mpr ⟨i, (his i).mpr hi, rfl⟩,
      mem_map_put_iff.mpr ⟨hlt, hagree⟩⟩

/-- **Quantifiers are computed in range.** -/
theorem exists_forget_table {xs : List VarId} (his : s.ListedBy is)
    (hxs : ∀ x ∈ xs, x ∈ sp.registry.ids) :
    ∃ js, sp.table.forget is xs = .ok js ∧ (s.forget xs).ListedBy js := by
  induction xs generalizing is s with
  | nil => exact ⟨is, rfl, his⟩
  | cons x xs ih =>
    rw [IndexTable.forget]
    by_cases hempty : is.isEmpty = true
    · -- nothing is dropped from the empty set
      rw [if_pos hempty]
      have hnone : ∀ i, i ∉ s := fun i hi ↦ by
        have hmem := (his i).mpr hi
        rw [List.isEmpty_iff.mp hempty] at hmem
        exact absurd hmem List.not_mem_nil
      refine ⟨is, rfl, fun i ↦ ?_⟩
      rw [StateSet.mem_forget hxs, his]
      exact iff_of_false (hnone i) fun ⟨_, j, hj, _⟩ ↦ hnone j hj
    · obtain ⟨js, hjs, hlists⟩ := exists_forgetOne_table his (hxs x List.mem_cons_self)
      rw [if_neg hempty, hjs, ok_bind]
      exact ih hlists fun y hy ↦ hxs y (List.mem_cons_of_mem x hy)

/-! ## Priming -/

/-- Changing one digit, by a difference of whole numbers. -/
theorem cast_put {value : Nat} (hi : i < sp.size) (hx : x ∈ sp.registry.ids)
    (hv : value < sp.domainSize x) :
    (sp.put i x value : Int) = i + ((value : Int) - sp.digit i x) * sp.stride x := by
  obtain ⟨b, hib, hput⟩ := exists_put_eq_add hi hx
  have hi' : (i : Int) = b + sp.digit i x * sp.stride x := by exact_mod_cast hib
  rw [hput value hv, hi']
  push_cast
  ring

theorem digit_rename_exchangeAt (v : Nat) (x y : VarId) :
    sp.digit (sp.rename (StateSet.exchangeAt x) v) y =
      if y = x ∨ y = x.twin then sp.digit v y.twin else sp.digit v y := by
  rw [digit_rename (StateSet.domainSize_exchangeAt x), StateSet.exchangeAt, apply_ite (sp.digit v)]

/-- The exchange of a pair, as a change of two digits. -/
theorem rename_exchangeAt_eq_put (i : Nat) (x : VarId) :
    sp.rename (StateSet.exchangeAt x) i =
      sp.put (sp.put i x (sp.digit i x.twin)) x.twin (sp.digit i x) := by
  have hnow : sp.digit i x.twin < sp.domainSize x := sp.domainSize_twin x ▸ sp.digit_lt i x.twin
  have hnext : sp.digit i x < sp.domainSize x.twin := (sp.domainSize_twin x).symm ▸ sp.digit_lt i x
  refine eq_of_digit_eq (rename_lt (StateSet.domainSize_exchangeAt x) i) (put_lt hnext) fun y ↦ ?_
  rw [digit_rename_exchangeAt]
  by_cases hyt : y = x.twin
  · rw [hyt, if_pos (Or.inr rfl), VarId.twin_twin, digit_put_self hnext]
  · rw [digit_put_of_ne hnext hyt]
    by_cases hy : y = x
    · rw [hy, if_pos (Or.inl rfl), digit_put_self hnow]
    · rw [digit_put_of_ne hnow hy, if_neg (not_or.mpr ⟨hy, hyt⟩)]

theorem cast_rename_exchangeAt (hi : i < sp.size) (hx : x ∈ sp.registry.ids) :
    (sp.rename (StateSet.exchangeAt x) i : Int) =
      i + (((sp.digit i x.twin : Int) - sp.digit i x) * sp.stride x +
        ((sp.digit i x : Int) - sp.digit i x.twin) * sp.stride x.twin) := by
  have hnow : sp.digit i x.twin < sp.domainSize x := sp.domainSize_twin x ▸ sp.digit_lt i x.twin
  have hnext : sp.digit i x < sp.domainSize x.twin := (sp.domainSize_twin x).symm ▸ sp.digit_lt i x
  rw [rename_exchangeAt_eq_put, cast_put (put_lt hnow) (sp.registry.twin_mem_ids hx) hnext,
    cast_put hi hx hnow, digit_put_of_ne hnow x.twin_ne]
  ring

/-- A difference of two values, times the stride, is less than the number of valuations. -/
theorem abs_sub_mul_stride_lt {a c : Nat} (hx : x ∈ sp.registry.ids) (ha : a < sp.domainSize x)
    (hc : c < sp.domainSize x) :
    -0x100000000 < ((a : Int) - c) * sp.stride x ∧ ((a : Int) - c) * sp.stride x < 0x100000000 := by
  have hfit := sp.size_lt_word
  have hpos := sp.stride_pos x
  have hA := mul_stride_add_stride_le hx ha
  have hC := mul_stride_add_stride_le hx hc
  have hsub : ((a : Int) - c) * sp.stride x
      = (a * sp.stride x : Nat) - (c * sp.stride x : Nat) := by
    push_cast
    ring
  rw [hsub]
  omega

/-- **A pair is exchanged in range.** The digits are those of the index at which priming began; they
have not changed until the pair is reached. -/
theorem exchange_table {v : Nat} (hv : v < sp.size) (hx : x ∈ sp.registry.ids)
    (hnow : sp.digit v x = sp.digit i x) (hnext : sp.digit v x.twin = sp.digit i x.twin) :
    sp.table.exchange i v (x, x.twin) = .ok (sp.rename (StateSet.exchangeAt x) v : Int) := by
  have hx' := sp.registry.twin_mem_ids hx
  have hfit := sp.size_lt_word
  have hlt : sp.rename (StateSet.exchangeAt x) v < sp.size :=
    rename_lt (StateSet.domainSize_exchangeAt x) v
  have hout := cast_rename_exchangeAt hv hx
  have hd := sp.digit_lt i x
  have hd' : sp.digit i x.twin < sp.domainSize x := sp.domainSize_twin x ▸ sp.digit_lt i x.twin
  have hsize : sp.domainSize x ≤ sp.size := domainSize_le_size hx
  have hlow := stride_le_size hx
  have hhigh := stride_le_size hx'
  have hgain := abs_sub_mul_stride_lt hx hd' hd
  have hloss := abs_sub_mul_stride_lt hx' (sp.domainSize_twin x ▸ hd) (sp.domainSize_twin x ▸ hd')
  rw [hnow, hnext] at hout
  rw [IndexTable.exchange, digit_table i hx, ok_bind, signed_of_mem (by omega), ok_bind,
    digit_table i hx', ok_bind, signed_of_mem (by omega), ok_bind,
    lookup_strides hx, ok_bind, signed_of_mem (by omega), ok_bind,
    lookup_strides hx', ok_bind, signed_of_mem (by omega), ok_bind,
    signed_of_mem (by omega), ok_bind, signed_of_mem (by omega), ok_bind,
    signed_of_mem (by omega), ok_bind, signed_of_mem (by omega), ok_bind,
    signed_of_mem (by omega), ok_bind, ← hout]
  exact signed_of_mem (by omega)

/-- **Any number of pairs is exchanged in range.** The invariant: what has been reached so far is an
index, and it still has the digits of `i` wherever a pair is to come. -/
theorem exists_foldlM_exchange {xs : List VarId} {v : Nat} (hv : v < sp.size)
    (hxs : ∀ x ∈ xs, x ∈ sp.registry.currentIds) (hnodup : xs.Nodup)
    (hkept : ∀ x ∈ xs, sp.digit v x = sp.digit i x ∧ sp.digit v x.twin = sp.digit i x.twin) :
    ∃ w, w < sp.size ∧
      (xs.map fun x ↦ (x, x.twin)).foldlM (sp.table.exchange i) (v : Int) = .ok (w : Int) ∧
      ∀ y, sp.digit w y = if y ∈ xs ∨ y.twin ∈ xs then sp.digit i y.twin else sp.digit v y := by
  induction xs generalizing v with
  | nil => exact ⟨v, hv, rfl, fun y ↦ by simp⟩
  | cons x xs ih =>
    obtain ⟨hx, hcurrent⟩ := sp.registry.mem_currentIds.mp (hxs x List.mem_cons_self)
    obtain ⟨hnow, hnext⟩ := hkept x List.mem_cons_self
    obtain ⟨hnot, hnodup⟩ := List.nodup_cons.mp hnodup
    have htwin : x.twin ∉ xs := fun hmem ↦ by
      have hp := (sp.registry.mem_currentIds.mp (hxs _ (List.mem_cons_of_mem x hmem))).2
      rw [VarId.isPrimed_twin, hcurrent] at hp
      simp at hp
    have hfree : ∀ z ∈ xs, ¬(z = x ∨ z = x.twin) := by
      rintro z hz (rfl | rfl)
      · exact hnot hz
      · exact htwin hz
    have hfree' : ∀ z ∈ xs, ¬(z.twin = x ∨ z.twin = x.twin) := by
      rintro z hz (h | h)
      · exact hfree z hz (Or.inr (by rw [← h, VarId.twin_twin]))
      · exact hfree z hz (Or.inl (VarId.twin_inj h))
    have hkept' : ∀ z ∈ xs, sp.digit (sp.rename (StateSet.exchangeAt x) v) z = sp.digit i z ∧
        sp.digit (sp.rename (StateSet.exchangeAt x) v) z.twin = sp.digit i z.twin := by
      intro z hz
      rw [digit_rename_exchangeAt, if_neg (hfree z hz), digit_rename_exchangeAt,
        if_neg (hfree' z hz)]
      exact hkept z (List.mem_cons_of_mem x hz)
    obtain ⟨w, hw, hfold, hdigits⟩ := ih (rename_lt (StateSet.domainSize_exchangeAt x) v)
      (fun z hz ↦ hxs z (List.mem_cons_of_mem x hz)) hnodup hkept'
    refine ⟨w, hw, ?_, fun y ↦ ?_⟩
    · rw [List.map_cons, List.foldlM_cons, exchange_table hv hx hnow hnext, ok_bind]
      exact hfold
    · rw [hdigits]
      by_cases hin : y ∈ xs ∨ y.twin ∈ xs
      · rw [if_pos hin, if_pos (hin.imp (List.mem_cons_of_mem x) (List.mem_cons_of_mem x))]
      · rw [if_neg hin, digit_rename_exchangeAt]
        rw [not_or] at hin
        by_cases hy : y = x ∨ y = x.twin
        · rcases hy with rfl | rfl
          · rw [if_pos (Or.inl rfl), if_pos (Or.inl List.mem_cons_self), hnext]
          · rw [VarId.twin_twin, if_pos (Or.inr rfl), if_pos (Or.inr List.mem_cons_self), hnow]
        · rw [if_neg hy, if_neg]
          rw [List.mem_cons, List.mem_cons]
          rintro ((h | h) | (h | h))
          · exact hy (Or.inl h)
          · exact hin.1 h
          · exact hy (Or.inr (by rw [← h, VarId.twin_twin]))
          · exact hin.2 h

/-- **All pairs are exchanged in range.** -/
theorem swap_table (hi : i < sp.size) : sp.table.swap i = .ok (sp.swap i) := by
  have hnodup : sp.registry.currentIds.Nodup := sp.registry.nodup_ids.filter _
  obtain ⟨w, hw, hfold, hdigits⟩ :=
    exists_foldlM_exchange hi (fun _ h ↦ h) hnodup fun _ _ ↦ ⟨rfl, rfl⟩
  have hswap : w = sp.swap i := by
    refine eq_of_digit_eq hw (sp.swap_lt i) fun y ↦ ?_
    rw [hdigits, digit_swap]
    by_cases hy : y ∈ sp.registry.ids
    · rw [if_pos (sp.registry.mem_currentIds_or_twin_iff.mpr hy)]
    · rw [digit_of_not_mem (mt twin_mem_ids_iff.mp hy), digit_of_not_mem hy, ite_self]
  have hfit := sp.size_lt_word
  have htwins : sp.table.twins = sp.registry.currentIds.map fun x ↦ (x, x.twin) := rfl
  rw [IndexTable.swap, htwins, hfold, ok_bind, unsigned_of_lt (by omega), hswap]

/-- **Priming is computed in range.** -/
theorem exists_prime_table (his : s.ListedBy is) :
    ∃ js, sp.table.prime is = .ok js ∧ s.prime.ListedBy js := by
  have hswap : ∀ i ∈ is, sp.table.swap i = .ok _ := fun i hi ↦
    swap_table (his.lt_size i hi)
  refine ⟨_, mapM_eq_ok hswap, fun j ↦ ?_⟩
  rw [StateSet.mem_prime_iff_exists, List.mem_map]
  constructor
  · rintro ⟨i, hi, rfl⟩
    exact ⟨i, (his i).mp hi, rfl⟩
  · rintro ⟨i, hi, rfl⟩
    exact ⟨i, (his i).mpr hi, rfl⟩

/-! ## The index space -/

/-- Indices below the size of a space are its valuations, and index arithmetic in words answers what
the operations on sets answer. -/
structure IndexedExactly (sp : Space) : Prop where
  size_eq : sp.size = (sp.registry.ids.map sp.registry.domainSize).prod
  /-- Every index is one valuation, every valuation has one index. -/
  bijective : Function.Bijective sp.valuation
  /-- A digit is read without dividing by zero. -/
  digit : ∀ i, ∀ x ∈ sp.registry.ids, sp.table.digit i x = .ok (sp.digit i x)
  mem_literal : ∀ x ∈ sp.registry.ids, ∀ value i,
    i ∈ (StateSet.literal x value : StateSet sp) ↔ i < sp.size ∧ sp.digit i x = value
  /-- What is no value of a copy has no index. -/
  literal_eq_empty : ∀ x ∈ sp.registry.ids, ∀ value, sp.registry.domainSize x ≤ value →
    (StateSet.literal x value : StateSet sp) = ∅
  literal : ∀ x ∈ sp.registry.ids, ∀ value, ∃ rs, sp.table.literal x value = .ok rs ∧
    Ranges rs sp.size (· ∈ (StateSet.literal x value : StateSet sp))
  forget : ∀ (s : StateSet sp) (is : List Nat) (xs : List VarId), s.ListedBy is →
    (∀ x ∈ xs, x ∈ sp.registry.ids) →
    ∃ js, sp.table.forget is xs = .ok js ∧ (∀ j ∈ js, j < sp.size) ∧ (s.forget xs).ListedBy js
  prime : ∀ (s : StateSet sp) (is : List Nat), s.ListedBy is →
    ∃ js, sp.table.prime is = .ok js ∧ (∀ j ∈ js, j < sp.size) ∧ s.prime.ListedBy js

theorem indexedExactly (sp : Space) : sp.IndexedExactly where
  size_eq := by rw [sp.size_eq, sp.sizes_eq, volume_eq_prod, Registry.sizes_eq_map]
  bijective := sp.bijective_valuation
  digit i _ hx := digit_table i hx
  mem_literal _ hx _ _ := StateSet.mem_literal hx
  literal_eq_empty x hx value hv := by
    refine StateSet.ext_mem fun i ↦ ?_
    have hlt := sp.digit_lt i x
    have hsize : sp.registry.domainSize x = sp.domainSize x := length_values hx
    simp only [StateSet.mem_literal hx, StateSet.not_mem_empty, iff_false, not_and]
    omega
  literal _ hx value := exists_literal_table hx value
  forget s is xs his hxs := by
    obtain ⟨js, hjs, hlists⟩ := exists_forget_table his hxs
    exact ⟨js, hjs, hlists.lt_size, hlists⟩
  prime s is his := by
    obtain ⟨js, hjs, hlists⟩ := exists_prime_table his
    exact ⟨js, hjs, hlists.lt_size, hlists⟩

end Space

/-- **The index space is exact.** Where no variable has more values than a word can count, a table
is made in range and exists if and only if all copies have no more than `2 ^ 32 - 1` valuations
together; the indices are then the valuations, and nothing that is computed from them leaves its
word. -/
theorem Registry.indexes_exactly {r : Registry} (h : ∀ v ∈ r.declared, v.size < 2 ^ 32) :
    r.checkedTable = .ok ((Space.ofRegistry r).map Space.table) ∧
      ((∃ sp, Space.ofRegistry r = .ok sp) ↔ (r.ids.map r.domainSize).prod ≤ 2 ^ 32 - 1) ∧
      ∀ sp, Space.ofRegistry r = .ok sp → sp.registry = r ∧ sp.IndexedExactly := by
  refine ⟨checkedTable_eq h, ?_, fun sp hsp ↦ ⟨Space.registry_of_ofRegistry hsp, sp.indexedExactly⟩⟩
  rw [Space.exists_ofRegistry_iff, volume_eq_prod, sizes_eq_map]
  rfl

/-- A single variable with so many values. -/
def Registry.single (n : Nat) (hn : 0 < n) : Registry where
  declared :=
    [⟨⟨rangeValues n, by simp [rangeValues]; omega, nodup_rangeValues n⟩, "w", .env, by decide⟩]
  nodup_names := List.nodup_singleton _

theorem Registry.prod_single (n : Nat) (hn : 0 < n) :
    ((single n hn).ids.map (single n hn).domainSize).prod = n * n := by
  rw [← sizes_eq_map]
  simp [sizes, single, Domain.size, rangeValues]

/-- The largest variable of which both copies fit, and the smallest one of which they do not. -/
theorem Registry.indexes_exactly_wide :
    (∃ sp, Space.ofRegistry (single 65535 (by decide)) = .ok sp ∧ sp.size = 4294836225 ∧
      sp.IndexedExactly) ∧
    ¬∃ sp, Space.ofRegistry (single 65536 (by decide)) = .ok sp := by
  have hsize : ∀ n hn, n < 2 ^ 32 → ∀ v ∈ (single n hn).declared, v.size < 2 ^ 32 := by
    intro n hn hlt v hv
    obtain rfl := List.mem_singleton.mp hv
    simpa [Domain.size, rangeValues] using hlt
  obtain ⟨-, hok, hexact⟩ := indexes_exactly (hsize 65535 (by decide) (by decide))
  obtain ⟨-, hno, -⟩ := indexes_exactly (hsize 65536 (by decide) (by decide))
  rw [prod_single] at hok hno
  obtain ⟨sp, hsp⟩ := hok.mpr (by decide)
  obtain ⟨hr, hindexed⟩ := hexact sp hsp
  refine ⟨⟨sp, hsp, ?_, hindexed⟩, fun h ↦ absurd (hno.mp h) (by decide)⟩
  rw [hindexed.size_eq, hr, prod_single]

end JusticeViolation

import Mathlib.Data.Finset.Card
import JusticeViolation.Proofs.Space.Digits
import JusticeViolation.StateSet

/-!
# Members of sets of valuations

One lemma per operation on `StateSet` says which valuations belong to the result. The Boolean
operations are the bitwise ones. Quantification along axes is projection: `forget` holds what agrees
with a member outside the forgotten copies. Priming is a substitution: a valuation belongs to
`s.prime` when the valuation with every variable and its twin exchanged belongs to `s`.

Nothing below looks at masks again.
-/

namespace JusticeViolation

namespace Mask

theorem lt_of_testBit {m n i : Nat} (hm : m < 2 ^ n) (h : m.testBit i = true) : i < n := by
  by_contra hi
  have hle : m < 2 ^ i := hm.trans_le (Nat.pow_le_pow_right Nat.two_pos (Nat.not_lt.mp hi))
  rw [Nat.testBit_lt_two_pow hle] at h
  simp at h

theorem testBit_below (n i : Nat) : (below n).testBit i = decide (i < n) :=
  Nat.testBit_two_pow_sub_one n i

/-- Tiles that do not overlap. -/
theorem testBit_tile_of_lt {m stride n i : Nat} (hm : m < 2 ^ stride) :
    (tile m stride n).testBit i = true ↔ i < stride * n ∧ m.testBit (i % stride) = true := by
  rw [testBit_tile]
  constructor
  · rintro ⟨k, hk, hle, h⟩
    obtain ⟨r, rfl⟩ : ∃ r, i = r + k * stride := ⟨i - k * stride, by omega⟩
    rw [Nat.add_sub_cancel] at h
    have hr : r < stride := lt_of_testBit hm h
    rw [Nat.add_mul_mod_self_right, Nat.mod_eq_of_lt hr]
    refine ⟨?_, h⟩
    calc r + k * stride < (k + 1) * stride := by rw [Nat.succ_mul]; omega
      _ ≤ n * stride := Nat.mul_le_mul_right stride hk
      _ = stride * n := Nat.mul_comm n stride
  · rintro ⟨hlt, h⟩
    have hdm := Nat.div_add_mod i stride
    rw [Nat.mul_comm] at hdm
    exact ⟨i / stride, Nat.div_lt_of_lt_mul hlt, by omega,
      by rwa [show i - i / stride * stride = i % stride from by omega]⟩

end Mask

namespace StateSet

variable {sp : Space}

/-! ## Boolean operations -/

theorem mem_def {s : StateSet sp} {i : Nat} : i ∈ s ↔ s.mask.testBit i = true := Iff.rfl

theorem lt_size {s : StateSet sp} {i : Nat} (h : i ∈ s) : i < sp.size :=
  Mask.lt_of_testBit s.mask_lt h

theorem ext_mem {s t : StateSet sp} (h : ∀ i, i ∈ s ↔ i ∈ t) : s = t := by
  obtain ⟨m, hm⟩ := s
  obtain ⟨n, hn⟩ := t
  have hmn : m = n := Nat.eq_of_testBit_eq fun i ↦ Bool.eq_iff_iff.mpr (h i)
  subst hmn
  rfl

theorem mem_ofMask {m i : Nat} :
    i ∈ (ofMask m : StateSet sp) ↔ i < sp.size ∧ m.testBit i = true := by
  have hmask : (ofMask m : StateSet sp).mask = m % 2 ^ sp.size := rfl
  rw [mem_def, hmask, Nat.testBit_mod_two_pow, Bool.and_eq_true, decide_eq_true_iff]

@[simp] theorem not_mem_empty (i : Nat) : i ∉ (∅ : StateSet sp) := by
  intro h
  rw [mem_def, show (∅ : StateSet sp).mask = 0 from rfl, Nat.zero_testBit] at h
  simp at h

@[simp] theorem mem_univ {i : Nat} : i ∈ (univ : StateSet sp) ↔ i < sp.size := by
  rw [mem_def, show (univ : StateSet sp).mask = Mask.below sp.size from rfl, Mask.testBit_below,
    decide_eq_true_iff]

@[simp] theorem mem_union {s t : StateSet sp} {i : Nat} : i ∈ s ∪ t ↔ i ∈ s ∨ i ∈ t := by
  rw [mem_def, show (s ∪ t).mask = s.mask ||| t.mask from rfl, Nat.testBit_or, Bool.or_eq_true]
  rfl

@[simp] theorem mem_inter {s t : StateSet sp} {i : Nat} : i ∈ s ∩ t ↔ i ∈ s ∧ i ∈ t := by
  rw [mem_def, show (s ∩ t).mask = s.mask &&& t.mask from rfl, Nat.testBit_and, Bool.and_eq_true]
  rfl

@[simp] theorem mem_sdiff {s t : StateSet sp} {i : Nat} : i ∈ s \ t ↔ i ∈ s ∧ i ∉ t := by
  rw [mem_def, show (s \ t).mask = s.mask ^^^ (s.mask &&& t.mask) from rfl, Nat.testBit_xor,
    Nat.testBit_and, mem_def, mem_def]
  cases s.mask.testBit i <;> cases t.mask.testBit i <;> simp

@[simp] theorem mem_compl {s : StateSet sp} {i : Nat} : i ∈ s.compl ↔ i < sp.size ∧ i ∉ s := by
  rw [compl, mem_sdiff, mem_univ]

@[simp] theorem mem_implies {s t : StateSet sp} {i : Nat} :
    i ∈ s.implies t ↔ i < sp.size ∧ (i ∈ s → i ∈ t) := by
  rw [implies, mem_union, mem_compl]
  constructor
  · rintro (⟨hi, hs⟩ | ht)
    · exact ⟨hi, fun h ↦ absurd h hs⟩
    · exact ⟨lt_size ht, fun _ ↦ ht⟩
  · rintro ⟨hi, h⟩
    by_cases hs : i ∈ s
    · exact Or.inr (h hs)
    · exact Or.inl ⟨hi, hs⟩

theorem isEmpty_iff {s : StateSet sp} : s.isEmpty = true ↔ ∀ i, i ∉ s := by
  rw [isEmpty, beq_iff_eq]
  constructor
  · intro h i hi
    rw [mem_def, h, Nat.zero_testBit] at hi
    simp at hi
  · intro h
    refine Nat.eq_of_testBit_eq fun i ↦ ?_
    rw [Nat.zero_testBit, Bool.eq_false_iff]
    exact h i

theorem isEmpty_eq_false_iff {s : StateSet sp} : s.isEmpty = false ↔ ∃ i, i ∈ s := by
  rw [Bool.eq_false_iff, Ne, isEmpty_iff, not_forall]
  simp only [not_not]

theorem subset_iff {s t : StateSet sp} : s.subset t = true ↔ ∀ i, i ∈ s → i ∈ t := by
  rw [subset, isEmpty_iff]
  refine forall_congr' fun i ↦ ?_
  rw [mem_sdiff, not_and, not_not]

theorem meets_iff {s t : StateSet sp} : s.meets t = true ↔ ∃ i, i ∈ s ∧ i ∈ t := by
  rw [meets, Bool.not_eq_true', isEmpty_eq_false_iff]
  simp only [mem_inter]

theorem mem_unionAll {ss : List (StateSet sp)} {i : Nat} : i ∈ unionAll ss ↔ ∃ s ∈ ss, i ∈ s := by
  have key : ∀ (ss : List (StateSet sp)) (t : StateSet sp),
      i ∈ ss.foldl (· ∪ ·) t ↔ i ∈ t ∨ ∃ s ∈ ss, i ∈ s := by
    intro ss
    induction ss with
    | nil => simp
    | cons s ss ih =>
      intro t
      rw [List.foldl_cons, ih, mem_union, List.exists_mem_cons_iff, or_assoc]
  rw [unionAll, key]
  simp

theorem mem_interAll {ss : List (StateSet sp)} {i : Nat} :
    i ∈ interAll ss ↔ i < sp.size ∧ ∀ s ∈ ss, i ∈ s := by
  have key : ∀ (ss : List (StateSet sp)) (t : StateSet sp),
      i ∈ ss.foldl (· ∩ ·) t ↔ i ∈ t ∧ ∀ s ∈ ss, i ∈ s := by
    intro ss
    induction ss with
    | nil => simp
    | cons s ss ih =>
      intro t
      rw [List.foldl_cons, ih, mem_inter, List.forall_mem_cons, and_assoc]
  rw [interAll, key, mem_univ]

/-! ## Literals -/

private theorem testBit_fill {m stride : Nat} {ns : List Nat} {i : Nat} (hm : m < 2 ^ stride) :
    (fill m stride ns).testBit i = true ↔
      i < stride * ns.prod ∧ m.testBit (i % stride) = true := by
  induction ns generalizing m stride with
  | nil =>
    rw [fill, List.prod_nil, Nat.mul_one]
    constructor
    · intro h
      have hi := Mask.lt_of_testBit hm h
      exact ⟨hi, by rwa [Nat.mod_eq_of_lt hi]⟩
    · rintro ⟨hi, h⟩
      rwa [Nat.mod_eq_of_lt hi] at h
  | cons n ns ih =>
    have htile : Mask.tile m stride n < 2 ^ (stride * n) := by
      refine Nat.lt_pow_two_of_testBit _ fun j hj ↦ ?_
      rw [Bool.eq_false_iff]
      intro h
      have := (Mask.testBit_tile_of_lt hm).mp h
      omega
    rw [fill, ih htile, Mask.testBit_tile_of_lt hm, Nat.mod_mul_right_mod, List.prod_cons,
      ← Nat.mul_assoc]
    constructor
    · rintro ⟨hi, -, h⟩
      exact ⟨hi, h⟩
    · rintro ⟨hi, h⟩
      refine ⟨hi, Nat.mod_lt i (Nat.pos_of_ne_zero fun h0 ↦ ?_), h⟩
      rw [h0, Nat.zero_mul] at hi
      exact absurd hi (Nat.not_lt_zero i)

private theorem testBit_cylinder {value stride position : Nat} {sizes : List Nat} {i : Nat}
    (hstride : 0 < stride) (hsizes : ∀ n ∈ sizes, 0 < n) (hpos : position < sizes.length) :
    (cylinder value stride position sizes).testBit i = true ↔
      i < stride * sizes.prod ∧ digitAt sizes (i / stride) position = value := by
  induction sizes generalizing stride position with
  | nil => simp at hpos
  | cons n ns ih =>
    have hn : 0 < n := hsizes n List.mem_cons_self
    cases position with
    | succ position =>
      have hlen : position < ns.length := by simpa using hpos
      rw [cylinder, ih (Nat.mul_pos hstride hn)
        (fun k hk ↦ hsizes k (List.mem_cons_of_mem n hk)) hlen, digitAt_cons_succ,
        Nat.div_div_eq_div_mul, List.prod_cons, Nat.mul_assoc]
    | zero =>
      rw [digitAt_cons_zero, cylinder]
      by_cases hv : value < n
      · have hm : Mask.below stride <<< (value * stride) < 2 ^ (stride * n) := by
          refine Nat.lt_pow_two_of_testBit _ fun j hj ↦ ?_
          have hle : (value + 1) * stride ≤ stride * n := by
            rw [Nat.mul_comm stride n]
            exact Nat.mul_le_mul_right stride hv
          rw [Nat.succ_mul] at hle
          rw [Nat.testBit_shiftLeft, Mask.testBit_below]
          simp only [Bool.and_eq_false_iff, decide_eq_false_iff_not]
          omega
        rw [if_pos hv, testBit_fill hm, Nat.testBit_shiftLeft, Mask.testBit_below,
          Bool.and_eq_true, decide_eq_true_iff, decide_eq_true_iff,
          List.prod_cons, Nat.mul_assoc, ← Nat.mod_mul_right_div_self, Nat.div_eq_iff hstride]
        refine and_congr_right fun _ ↦ ?_
        omega
      · rw [if_neg hv, Nat.zero_testBit]
        have := Nat.mod_lt (i / stride) hn
        simp only [Bool.false_eq_true, false_iff, not_and]
        omega

theorem mem_literal {x : VarId} {value i : Nat} (hx : x ∈ sp.registry.ids) :
    i ∈ (literal x value : StateSet sp) ↔ i < sp.size ∧ sp.digit i x = value := by
  have hpos : x.index < sp.sizes.length := by
    rwa [sp.length_sizes, ← Registry.mem_ids]
  have hsizes : ∀ n ∈ sp.sizes, 0 < n := fun n hn ↦ Registry.pos_of_mem_sizes (sp.sizes_eq ▸ hn)
  rw [literal, mem_ofMask, testBit_cylinder Nat.one_pos hsizes hpos, Nat.one_mul, Nat.div_one,
    ← volume_eq_prod, ← sp.size_eq]
  constructor
  · rintro ⟨hi, -, h⟩
    exact ⟨hi, h⟩
  · rintro ⟨hi, h⟩
    exact ⟨hi, hi, h⟩

/-! ## Projection -/

theorem mem_forgetOne {s : StateSet sp} {x : VarId} {i : Nat} (hx : x ∈ sp.registry.ids) :
    i ∈ s.forgetOne x ↔ i < sp.size ∧ ∃ j ∈ s, sp.AgreeOff [x] i j := by
  have hbase : ∀ {b : Nat}, b ∈ (literal x 0 : StateSet sp) → ∀ {k : Nat}, k < sp.domainSize x →
      b + k * sp.stride x < sp.size ∧ sp.AgreeOff [x] (b + k * sp.stride x) b := by
    intro b hb k hk
    obtain ⟨hlt, hd⟩ := (mem_literal hx).mp hb
    have hk' : sp.digit b x + k < sp.domainSize x := by rwa [hd, Nat.zero_add]
    refine ⟨Space.add_stride_lt hlt hx hk', fun y hy ↦ ?_⟩
    exact Space.digit_add_stride_of_ne hlt hx hk' fun h ↦ hy (List.mem_singleton.mpr h)
  rw [forgetOne, mem_ofMask]
  refine and_congr_right fun hi ↦ ?_
  simp only [Mask.testBit_tile, Nat.testBit_and, Bool.and_eq_true, Mask.testBit_fold]
  constructor
  · rintro ⟨k, hk, hle, ⟨k', hk', hs⟩, hb⟩
    have hik : i = i - k * sp.stride x + k * sp.stride x := by omega
    have h1 := (hbase hb hk).2
    rw [← hik] at h1
    exact ⟨_, hs, h1.trans (hbase hb hk').2.symm⟩
  · rintro ⟨j, hj, hij⟩
    obtain ⟨b, hb, hbx, hby, hbi⟩ := Space.exists_base hi hx
    obtain ⟨c, hc, hcx, hcy, hcj⟩ := Space.exists_base (lt_size hj) hx
    have hbc : c = b := by
      refine Space.eq_of_digit_eq hc hb fun y ↦ ?_
      by_cases hy : y = x
      · rw [hy, hbx, hcx]
      · rw [hby y hy, hcy y hy, hij y fun h ↦ hy (List.mem_singleton.mp h)]
    subst hbc
    have hsub : i - sp.digit i x * sp.stride x = c := by omega
    refine ⟨sp.digit i x, sp.digit_lt i x, by omega, ⟨sp.digit j x, sp.digit_lt j x, ?_⟩, ?_⟩
    · rw [hsub, ← hcj]
      exact hj
    · rw [hsub]
      exact (mem_literal hx).mpr ⟨hc, hcx⟩

/-- **Quantification is projection.** -/
theorem mem_forget {s : StateSet sp} {xs : List VarId} {i : Nat}
    (hxs : ∀ x ∈ xs, x ∈ sp.registry.ids) :
    i ∈ s.forget xs ↔ i < sp.size ∧ ∃ j ∈ s, sp.AgreeOff xs i j := by
  unfold forget
  induction xs generalizing s with
  | nil =>
    constructor
    · intro h
      exact ⟨lt_size h, i, h, Space.AgreeOff.refl [] i⟩
    · rintro ⟨hi, j, hj, hij⟩
      rwa [Space.eq_of_digit_eq hi (lt_size hj) fun x ↦ hij x List.not_mem_nil]
  | cons x xs ih =>
    have hx : x ∈ sp.registry.ids := hxs x List.mem_cons_self
    rw [List.foldl_cons, ih fun y hy ↦ hxs y (List.mem_cons_of_mem x hy)]
    refine and_congr_right fun hi ↦ ?_
    constructor
    · rintro ⟨j, hj, hij⟩
      obtain ⟨-, k, hk, hjk⟩ := (mem_forgetOne hx).mp hj
      refine ⟨k, hk, fun y hy ↦ ?_⟩
      rw [List.mem_cons, not_or] at hy
      rw [hij y hy.2, hjk y fun h ↦ hy.1 (List.mem_singleton.mp h)]
    · rintro ⟨k, hk, hik⟩
      -- between `i` and `k` stands `k` with the value that `i` gives to `x`
      have hf : ∀ y, Function.update (sp.digit k) x (sp.digit i x) y < sp.domainSize y := by
        intro y
        by_cases hy : y = x
        · rw [hy, Function.update_self]
          exact sp.digit_lt i x
        · rw [Function.update_of_ne hy]
          exact sp.digit_lt k y
      refine ⟨sp.encode (Function.update (sp.digit k) x (sp.digit i x)),
        (mem_forgetOne hx).mpr ⟨Space.encode_lt hf, k, hk, fun y hy ↦ ?_⟩, fun y hy ↦ ?_⟩
      · rw [Space.digit_encode hf, Function.update_of_ne fun h ↦ hy (List.mem_singleton.mpr h)]
      · rw [Space.digit_encode hf]
        by_cases hyx : y = x
        · rw [hyx, Function.update_self]
        · rw [Function.update_of_ne hyx]
          exact hik y (by rw [List.mem_cons, not_or]; exact ⟨hyx, hy⟩)

theorem mem_always {s : StateSet sp} {xs : List VarId} {i : Nat}
    (hxs : ∀ x ∈ xs, x ∈ sp.registry.ids) :
    i ∈ s.always xs ↔ i < sp.size ∧ ∀ j, j < sp.size → sp.AgreeOff xs i j → j ∈ s := by
  rw [always, mem_compl, mem_forget hxs]
  refine and_congr_right fun hi ↦ ?_
  constructor
  · intro h j hj hij
    by_contra hs
    exact h ⟨hi, j, mem_compl.mpr ⟨hj, hs⟩, hij⟩
  · rintro h ⟨-, j, hj, hij⟩
    rw [mem_compl] at hj
    exact hj.2 (h j hj.1 hij)

/-! ## Priming -/

/-- The exchange of one variable and its twin. -/
def exchangeAt (x y : VarId) : VarId := if y = x ∨ y = x.twin then y.twin else y

theorem domainSize_exchangeAt (x y : VarId) :
    sp.domainSize (exchangeAt x y) = sp.domainSize y := by
  unfold exchangeAt
  split
  · exact sp.domainSize_twin y
  · rfl

/-- From a valuation in which `x` and its twin are 0, all values of the two are reached by adding
multiples of the two strides. -/
private theorem add_two_strides {b a c : Nat} {x : VarId} (hx : x ∈ sp.registry.ids)
    (hb : b ∈ (literal x 0 ∩ literal x.twin 0 : StateSet sp)) (ha : a < sp.domainSize x)
    (hc : c < sp.domainSize x) :
    let v := b + a * sp.stride x + c * sp.stride x.twin
    v < sp.size ∧ sp.digit v x = a ∧ sp.digit v x.twin = c ∧
      ∀ y, y ≠ x → y ≠ x.twin → sp.digit v y = sp.digit b y := by
  have hx' := sp.registry.twin_mem_ids hx
  obtain ⟨h1, h2⟩ := mem_inter.mp hb
  obtain ⟨hlt, hbx⟩ := (mem_literal hx).mp h1
  have hbt := ((mem_literal hx').mp h2).2
  have ha' : sp.digit b x + a < sp.domainSize x := by rwa [hbx, Nat.zero_add]
  have hlt1 := Space.add_stride_lt hlt hx ha'
  have hdt : sp.digit (b + a * sp.stride x) x.twin = 0 := by
    rw [Space.digit_add_stride_of_ne hlt hx ha' x.twin_ne, hbt]
  have hc' : sp.digit (b + a * sp.stride x) x.twin + c < sp.domainSize x.twin := by
    rwa [hdt, Nat.zero_add, sp.domainSize_twin]
  refine ⟨Space.add_stride_lt hlt1 hx' hc', ?_, ?_, fun y hy hy' ↦ ?_⟩
  · rw [Space.digit_add_stride_of_ne hlt1 hx' hc' x.twin_ne.symm,
      Space.digit_add_stride_self hlt hx ha', hbx, Nat.zero_add]
  · rw [Space.digit_add_stride_self hlt1 hx' hc', hdt, Nat.zero_add]
  · rw [Space.digit_add_stride_of_ne hlt1 hx' hc' hy', Space.digit_add_stride_of_ne hlt hx ha' hy]

private theorem exists_two_base {i : Nat} {x : VarId} (hi : i < sp.size)
    (hx : x ∈ sp.registry.ids) :
    ∃ b, b ∈ (literal x 0 ∩ literal x.twin 0 : StateSet sp) ∧
      i = b + sp.digit i x * sp.stride x + sp.digit i x.twin * sp.stride x.twin := by
  have hx' := sp.registry.twin_mem_ids hx
  obtain ⟨c, hc, hcx, hcy, hci⟩ := Space.exists_base hi hx'
  obtain ⟨b, hb, hbx, hby, hbc⟩ := Space.exists_base hc hx
  refine ⟨b, mem_inter.mpr ⟨(mem_literal hx).mpr ⟨hb, hbx⟩, (mem_literal hx').mpr ⟨hb, ?_⟩⟩, ?_⟩
  · rw [hby _ x.twin_ne, hcx]
  · rw [← hcy x x.twin_ne.symm, ← hbc]
    exact hci

/-- The exchanged valuation, by strides. -/
private theorem rename_exchangeAt {b a c : Nat} {x : VarId} (hx : x ∈ sp.registry.ids)
    (hb : b ∈ (literal x 0 ∩ literal x.twin 0 : StateSet sp)) (ha : a < sp.domainSize x)
    (hc : c < sp.domainSize x) :
    sp.rename (exchangeAt x) (b + a * sp.stride x + c * sp.stride x.twin)
      = b + c * sp.stride x + a * sp.stride x.twin := by
  obtain ⟨-, hvx, hvt, hvy⟩ := add_two_strides hx hb ha hc
  obtain ⟨hlt, hwx, hwt, hwy⟩ := add_two_strides hx hb hc ha
  refine Space.eq_of_digit_eq (Space.rename_lt (domainSize_exchangeAt x) _) hlt fun y ↦ ?_
  rw [Space.digit_rename (domainSize_exchangeAt x)]
  by_cases hy : y = x
  · rw [hy, exchangeAt, if_pos (Or.inl rfl), hvt, hwx]
  · by_cases hyt : y = x.twin
    · rw [hyt, exchangeAt, if_pos (Or.inr rfl), VarId.twin_twin, hvx, hwt]
    · rw [exchangeAt, if_neg (not_or.mpr ⟨hy, hyt⟩), hvy y hy hyt, hwy y hy hyt]

/-- A base moved by `k + d` along one axis and by `k` along the other, as a tile finds it. -/
private theorem two_strides_iff {i b d k p q : Nat} :
    (d * p ≤ i ∧ k * (p + q) ≤ i - d * p ∧ i - d * p - k * (p + q) = b) ↔
      i = b + (k + d) * p + k * q := by
  rw [Nat.mul_add, Nat.add_mul]
  omega

/-- It moves to where the axes are exchanged. -/
private theorem swap_two_strides {i b d k p q : Nat} (h : i = b + (k + d) * p + k * q) :
    d * q + (i - d * p) = b + k * p + (k + d) * q := by
  rw [Nat.add_mul] at h ⊢
  omega

theorem mem_exchange {s : StateSet sp} {x : VarId} {i : Nat} (hx : x ∈ sp.registry.ids) :
    i ∈ s.exchange x ↔ i < sp.size ∧ sp.rename (exchangeAt x) i ∈ s := by
  rw [exchange, mem_ofMask]
  refine and_congr_right fun hi ↦ ?_
  simp only [Mask.testBit_unionRange, Nat.testBit_or, Nat.testBit_shiftLeft, Nat.testBit_and,
    Nat.testBit_shiftRight, Bool.or_eq_true, Bool.and_eq_true, decide_eq_true_iff,
    Mask.testBit_tile]
  constructor
  · rintro ⟨d, hd, ⟨hdi, hs, k, hk, hki, hb⟩ | ⟨hdi, hs, k, hk, hki, hb⟩⟩
    · have hib := two_strides_iff.mp ⟨hdi, hki, rfl⟩
      generalize i - d * sp.stride x - k * (sp.stride x + sp.stride x.twin) = b at hb hib
      rw [swap_two_strides hib] at hs
      rw [hib, rename_exchangeAt hx hb (by omega) (by omega)]
      exact hs
    · rw [Nat.add_comm (sp.stride x)] at hki hb
      have hib := two_strides_iff.mp ⟨hdi, hki, rfl⟩
      generalize i - d * sp.stride x.twin - k * (sp.stride x.twin + sp.stride x) = b at hb hib
      rw [swap_two_strides hib, Nat.add_right_comm] at hs
      rw [hib, Nat.add_right_comm, rename_exchangeAt hx hb (by omega) (by omega)]
      exact hs
  · intro h
    obtain ⟨b, hb, hib⟩ := exists_two_base hi hx
    have ha := sp.digit_lt i x
    have hc := sp.digit_lt i x.twin
    rw [sp.domainSize_twin] at hc
    rw [hib, rename_exchangeAt hx hb ha hc] at h
    generalize sp.digit i x = a at ha h hib
    generalize sp.digit i x.twin = c at hc h hib
    rcases Nat.le_total c a with hca | hac
    · obtain ⟨d, rfl⟩ := Nat.exists_eq_add_of_le hca
      obtain ⟨hdi, hki, hbase⟩ := two_strides_iff.mpr hib
      refine ⟨d, by omega, Or.inl ⟨hdi, ?_, c, by omega, hki, ?_⟩⟩
      · rw [swap_two_strides hib]
        exact h
      · rw [hbase]
        exact hb
    · obtain ⟨d, rfl⟩ := Nat.exists_eq_add_of_le hac
      rw [Nat.add_right_comm] at h hib
      obtain ⟨hdi, hki, hbase⟩ := two_strides_iff.mpr hib
      rw [Nat.add_comm (sp.stride x)]
      refine ⟨d, by omega, Or.inr ⟨hdi, ?_, a, by omega, hki, ?_⟩⟩
      · rw [swap_two_strides hib]
        exact h
      · rw [hbase]
        exact hb

/-- The exchange of several variables and their twins. -/
private def exchangeAll (xs : List VarId) (y : VarId) : VarId :=
  if y ∈ xs ∨ y.twin ∈ xs then y.twin else y

private theorem domainSize_exchangeAll (xs : List VarId) (y : VarId) :
    sp.domainSize (exchangeAll xs y) = sp.domainSize y := by
  unfold exchangeAll
  split
  · exact sp.domainSize_twin y
  · rfl

private theorem exchangeAll_exchangeAt {x : VarId} {xs : List VarId} (hx : x ∉ xs)
    (hxt : x.twin ∉ xs) (y : VarId) :
    exchangeAll xs (exchangeAt x y) = exchangeAll (x :: xs) y := by
  unfold exchangeAll exchangeAt
  by_cases hy : y = x
  · subst hy
    rw [if_pos (Or.inl rfl), VarId.twin_twin, if_neg (not_or.mpr ⟨hxt, hx⟩),
      if_pos (Or.inl List.mem_cons_self)]
  · by_cases hyt : y = x.twin
    · subst hyt
      rw [if_pos (Or.inr rfl), VarId.twin_twin, if_neg (not_or.mpr ⟨hx, hxt⟩),
        if_pos (Or.inr List.mem_cons_self)]
    · have hty : y.twin ≠ x := fun h ↦ hyt (by rw [← h, VarId.twin_twin])
      rw [if_neg (not_or.mpr ⟨hy, hyt⟩)]
      simp only [List.mem_cons, hy, hty, false_or]

private theorem mem_foldl_exchange {s : StateSet sp} {xs : List VarId} {i : Nat}
    (hxs : ∀ x ∈ xs, x ∈ sp.registry.currentIds) (hnd : xs.Nodup) :
    i ∈ xs.foldl exchange s ↔ i < sp.size ∧ sp.rename (exchangeAll xs) i ∈ s := by
  induction xs generalizing s with
  | nil =>
    rw [List.foldl_nil]
    constructor
    · intro h
      refine ⟨lt_size h, ?_⟩
      rwa [show exchangeAll [] = fun y ↦ y from rfl, Space.rename_id (lt_size h)]
    · rintro ⟨hi, h⟩
      rwa [show exchangeAll [] = fun y ↦ y from rfl, Space.rename_id hi] at h
  | cons x xs ih =>
    rw [List.nodup_cons] at hnd
    obtain ⟨hid, hcur⟩ := sp.registry.mem_currentIds.mp (hxs x List.mem_cons_self)
    have hxt : x.twin ∉ xs := by
      intro h
      have hp := (sp.registry.mem_currentIds.mp (hxs _ (List.mem_cons_of_mem x h))).2
      rw [VarId.isPrimed_twin, hcur] at hp
      simp at hp
    rw [List.foldl_cons, ih (fun y hy ↦ hxs y (List.mem_cons_of_mem x hy)) hnd.2,
      mem_exchange hid, Space.rename_rename (domainSize_exchangeAll xs)]
    simp only [exchangeAll_exchangeAt hnd.1 hxt, Space.rename_lt (domainSize_exchangeAll xs),
      true_and]

/-- **Priming is a substitution.** -/
theorem mem_prime {s : StateSet sp} {i : Nat} : i ∈ s.prime ↔ i < sp.size ∧ sp.swap i ∈ s := by
  have hnd : sp.registry.currentIds.Nodup :=
    (List.Nodup.map (fun _ _ h ↦ congrArg VarId.index h) List.nodup_range).filter _
  rw [prime, mem_foldl_exchange (fun _ h ↦ h) hnd]
  refine and_congr_right fun _ ↦ iff_of_eq (congrArg (· ∈ s) ?_)
  refine Space.eq_of_digit_eq (Space.rename_lt (domainSize_exchangeAll _) i) (sp.swap_lt i)
    fun y ↦ ?_
  rw [Space.digit_rename (domainSize_exchangeAll _), Space.digit_swap]
  by_cases hy : y ∈ sp.registry.ids
  · rw [exchangeAll, if_pos (sp.registry.mem_currentIds_or_twin_iff.mpr hy)]
  · have hyt : y.twin ∉ sp.registry.ids := fun h ↦
      hy (VarId.twin_twin y ▸ sp.registry.twin_mem_ids h)
    rw [Space.digit_of_not_mem hyt]
    unfold exchangeAll
    split
    · exact Space.digit_of_not_mem hyt i
    · exact Space.digit_of_not_mem hy i

end StateSet

end JusticeViolation

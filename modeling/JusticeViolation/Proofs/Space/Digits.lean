import Mathlib.Algebra.BigOperators.Group.List.Lemmas
import Mathlib.Algebra.Order.BigOperators.GroupWithZero.List
import Mathlib.Algebra.Order.Group.Nat
import Mathlib.Data.List.GetD
import Mathlib.Logic.Function.Basic
import Mathlib.Tactic.Ring
import JusticeViolation.Space

/-!
# Valuations as numbers in mixed radix

A valuation is its number, and what it says about a copy is a digit of the number. Two facts make
this a faithful picture of assignments: a number below the size of the space is determined by its
digits, and every assignment of admissible values is the digits of such a number, `Space.encode`.

Moving along the axis of one copy adds a multiple of its stride. The set operations are programmed
with such moves, so they are described here once: as long as the digit does not overflow, it alone
changes.
-/

namespace JusticeViolation

/-! ## Digits over a list of radices -/

theorem volume_eq_prod (sizes : List Nat) : volume sizes = sizes.prod := rfl

/-- The digit of `i` at position `k`, the first position varying fastest. -/
def digitAt (sizes : List Nat) (i k : Nat) : Nat := i / (sizes.take k).prod % sizes.getD k 1

/-- The number with given digits. -/
def encodeDigits : List Nat → (Nat → Nat) → Nat
  | [], _ => 0
  | n :: ns, f => f 0 + n * encodeDigits ns fun k ↦ f (k + 1)

theorem digitAt_cons_zero (n : Nat) (ns : List Nat) (i : Nat) : digitAt (n :: ns) i 0 = i % n := by
  simp [digitAt]

theorem digitAt_cons_succ (n : Nat) (ns : List Nat) (i k : Nat) :
    digitAt (n :: ns) i (k + 1) = digitAt ns (i / n) k := by
  rw [digitAt, digitAt, List.take_succ_cons, List.prod_cons, Nat.div_div_eq_div_mul,
    List.getD_cons_succ]

theorem eq_of_digitAt_eq {sizes : List Nat} {i j : Nat} (hi : i < sizes.prod)
    (hj : j < sizes.prod) (h : ∀ k, digitAt sizes i k = digitAt sizes j k) : i = j := by
  induction sizes generalizing i j with
  | nil =>
    rw [List.prod_nil, Nat.lt_one_iff] at hi hj
    rw [hi, hj]
  | cons n ns ih =>
    rw [List.prod_cons] at hi hj
    have hmod : i % n = j % n := by simpa only [digitAt_cons_zero] using h 0
    have hdiv : i / n = j / n :=
      ih (Nat.div_lt_of_lt_mul hi) (Nat.div_lt_of_lt_mul hj) fun k ↦ by
        simpa only [digitAt_cons_succ] using h (k + 1)
    rw [← Nat.div_add_mod i n, ← Nat.div_add_mod j n, hdiv, hmod]

theorem encodeDigits_lt {sizes : List Nat} {f : Nat → Nat} (hf : ∀ k, f k < sizes.getD k 1) :
    encodeDigits sizes f < sizes.prod := by
  induction sizes generalizing f with
  | nil => simp [encodeDigits]
  | cons n ns ih =>
    have h0 : f 0 < n := by simpa using hf 0
    have hrest : encodeDigits ns (fun k ↦ f (k + 1)) + 1 ≤ ns.prod :=
      ih fun k ↦ by simpa using hf (k + 1)
    calc encodeDigits (n :: ns) f = f 0 + n * encodeDigits ns (fun k ↦ f (k + 1)) := rfl
      _ < n * (encodeDigits ns (fun k ↦ f (k + 1)) + 1) := by rw [Nat.mul_add, Nat.mul_one]; omega
      _ ≤ n * ns.prod := Nat.mul_le_mul_left n hrest
      _ = (n :: ns).prod := List.prod_cons.symm

theorem digitAt_encodeDigits {sizes : List Nat} {f : Nat → Nat}
    (hf : ∀ k, f k < sizes.getD k 1) (k : Nat) : digitAt sizes (encodeDigits sizes f) k = f k := by
  induction sizes generalizing f k with
  | nil =>
    have : f k = 0 := by simpa using hf k
    simp [digitAt, this, Nat.mod_one]
  | cons n ns ih =>
    have h0 : f 0 < n := by simpa using hf 0
    cases k with
    | zero => rw [digitAt_cons_zero, encodeDigits, Nat.add_mul_mod_self_left, Nat.mod_eq_of_lt h0]
    | succ k =>
      rw [digitAt_cons_succ, encodeDigits, Nat.add_mul_div_left _ _ (by omega),
        Nat.div_eq_of_lt h0, Nat.zero_add]
      exact ih (fun k ↦ by simpa using hf (k + 1)) k

/-- Raising the digit at `p` by `k` adds `k` times the stride of `p`. -/
theorem encodeDigits_update_add {sizes : List Nat} (f : Nat → Nat) {p : Nat}
    (hp : p < sizes.length) (k : Nat) :
    encodeDigits sizes (Function.update f p (f p + k))
      = encodeDigits sizes f + k * (sizes.take p).prod := by
  induction sizes generalizing f p with
  | nil => simp at hp
  | cons n ns ih =>
    cases p with
    | zero =>
      have hrest : (fun j ↦ Function.update f 0 (f 0 + k) (j + 1)) = fun j ↦ f (j + 1) := by
        funext j
        rw [Function.update_of_ne (Nat.succ_ne_zero j)]
      rw [encodeDigits, hrest, Function.update_self, encodeDigits, List.take_zero, List.prod_nil]
      ring
    | succ p =>
      have hrest : (fun j ↦ Function.update f (p + 1) (f (p + 1) + k) (j + 1))
          = Function.update (fun j ↦ f (j + 1)) p (f (p + 1) + k) := by
        funext j
        by_cases hj : j = p
        · rw [hj, Function.update_self, Function.update_self]
        · rw [Function.update_of_ne (by omega), Function.update_of_ne hj]
      have hlen : p < ns.length := by simpa using hp
      rw [encodeDigits, hrest, ih (fun j ↦ f (j + 1)) hlen,
        Function.update_of_ne (Nat.succ_ne_zero p).symm, encodeDigits, List.take_succ_cons,
        List.prod_cons]
      ring

/-! ## Copies of variables -/

namespace VarId

theorem twin_ne (x : VarId) : x.twin ≠ x := by
  intro h
  have hp := isPrimed_twin x
  rw [h] at hp
  cases hx : x.isPrimed <;> rw [hx] at hp <;> cases hp

theorem twin_inj {x y : VarId} (h : x.twin = y.twin) : x = y := by
  rw [← twin_twin x, h, twin_twin]

theorem index_twin_div (x : VarId) : x.twin.index / 2 = x.index / 2 := by
  have h := Nat.mod_two_eq_zero_or_one x.index
  rcases h with h | h <;> simp [twin, isPrimed, h] <;> omega

end VarId

namespace Registry

variable (r : Registry)

theorem mem_ids {x : VarId} : x ∈ r.ids ↔ x.index < r.length := by
  rw [ids, List.mem_map]
  constructor
  · rintro ⟨k, hk, rfl⟩
    exact List.mem_range.mp hk
  · intro h
    exact ⟨x.index, List.mem_range.mpr h, rfl⟩

theorem twin_mem_ids {x : VarId} (h : x ∈ r.ids) : x.twin ∈ r.ids := by
  rw [mem_ids, length] at h ⊢
  have := x.index_twin_div
  omega

theorem mem_currentIds {x : VarId} : x ∈ r.currentIds ↔ x ∈ r.ids ∧ x.isPrimed = false := by
  rw [currentIds, List.mem_filter, Bool.not_eq_true']

theorem mem_primedIds {x : VarId} : x ∈ r.primedIds ↔ x ∈ r.ids ∧ x.isPrimed = true := by
  rw [primedIds, List.mem_filter]

/-- One of the two copies of a variable is the current one. -/
theorem mem_currentIds_or_twin_iff {x : VarId} :
    x ∈ r.currentIds ∨ x.twin ∈ r.currentIds ↔ x ∈ r.ids := by
  rw [mem_currentIds, mem_currentIds, VarId.isPrimed_twin]
  constructor
  · rintro (h | h)
    · exact h.1
    · exact VarId.twin_twin x ▸ r.twin_mem_ids h.1
  · intro hx
    cases x.isPrimed
    · exact Or.inl ⟨hx, rfl⟩
    · exact Or.inr ⟨r.twin_mem_ids hx, rfl⟩

theorem mem_roleIds {role : Role} {primed : Bool} {x : VarId} (h : x ∈ r.roleIds role primed) :
    x ∈ r.ids ∧ x.isPrimed = primed := by
  rw [roleIds, List.mem_filter, Bool.and_eq_true, beq_iff_eq] at h
  exact ⟨h.1, h.2.1⟩

/-- Both copies of a variable have as many values. -/
theorem getD_sizes (k : Nat) :
    r.sizes.getD k 1 = ((r.declared[k / 2]?).map (·.size)).getD 1 := by
  unfold sizes
  induction r.declared generalizing k with
  | nil => simp
  | cons v vs ih =>
    match k with
    | 0 => simp
    | 1 => simp
    | k + 2 =>
      have hdiv : (k + 2) / 2 = k / 2 + 1 := by omega
      rw [List.flatMap_cons, hdiv, List.getElem?_cons_succ, ← ih k]
      simp

end Registry

namespace Space

variable {sp : Space}

theorem length_sizes (sp : Space) : sp.sizes.length = sp.registry.length := by
  rw [sp.sizes_eq, Registry.length_sizes]

theorem domainSize_pos (sp : Space) (x : VarId) : 0 < sp.domainSize x := by
  rw [domainSize, List.getD_eq_getElem?_getD]
  cases h : sp.sizes[x.index]? with
  | none => exact Nat.one_pos
  | some n =>
    have hmem : n ∈ sp.registry.sizes := sp.sizes_eq ▸ List.mem_of_getElem? h
    exact Registry.pos_of_mem_sizes hmem

theorem domainSize_twin (sp : Space) (x : VarId) : sp.domainSize x.twin = sp.domainSize x := by
  rw [domainSize, domainSize, sp.sizes_eq, Registry.getD_sizes, Registry.getD_sizes,
    VarId.index_twin_div]

/-- What is no copy of a variable has a single value. -/
theorem domainSize_of_not_mem {x : VarId} (h : x ∉ sp.registry.ids) : sp.domainSize x = 1 := by
  rw [Registry.mem_ids, ← length_sizes, Nat.not_lt] at h
  rw [domainSize, List.getD_eq_default _ _ h]

/-! ## Reading and making valuations -/

theorem digit_lt (sp : Space) (i : Nat) (x : VarId) : sp.digit i x < sp.domainSize x :=
  Nat.mod_lt _ (sp.domainSize_pos x)

theorem digit_of_not_mem {x : VarId} (h : x ∉ sp.registry.ids) (i : Nat) : sp.digit i x = 0 := by
  have hlt := sp.digit_lt i x
  rw [domainSize_of_not_mem h] at hlt
  exact Nat.lt_one_iff.mp hlt

/-- A valuation is determined by its digits. -/
theorem eq_of_digit_eq {i j : Nat} (hi : i < sp.size) (hj : j < sp.size)
    (h : ∀ x, sp.digit i x = sp.digit j x) : i = j := by
  rw [sp.size_eq] at hi hj
  exact eq_of_digitAt_eq hi hj fun k ↦ h ⟨k⟩

/-- The valuation that assigns `f x` to every copy `x`. -/
def encode (sp : Space) (f : VarId → Nat) : Nat := encodeDigits sp.sizes fun k ↦ f ⟨k⟩

theorem encode_lt {f : VarId → Nat} (hf : ∀ x, f x < sp.domainSize x) : sp.encode f < sp.size := by
  rw [sp.size_eq]
  exact encodeDigits_lt fun k ↦ hf ⟨k⟩

theorem digit_encode {f : VarId → Nat} (hf : ∀ x, f x < sp.domainSize x) (x : VarId) :
    sp.digit (sp.encode f) x = f x :=
  digitAt_encodeDigits (fun k ↦ hf ⟨k⟩) x.index

theorem encode_digit {i : Nat} (hi : i < sp.size) : sp.encode (sp.digit i) = i :=
  eq_of_digit_eq (encode_lt (sp.digit_lt i)) hi (digit_encode (sp.digit_lt i))

/-- Two valuations can be put together, from one the copies with a property, from the other the
rest. -/
theorem exists_mixed (sp : Space) (i j : Nat) (p : VarId → Prop) : ∃ k, k < sp.size ∧
    (∀ x, p x → sp.digit k x = sp.digit i x) ∧ ∀ x, ¬p x → sp.digit k x = sp.digit j x := by
  classical
  have hf : ∀ x, (if p x then sp.digit i x else sp.digit j x) < sp.domainSize x := fun x ↦ by
    split
    · exact sp.digit_lt i x
    · exact sp.digit_lt j x
  refine ⟨_, encode_lt hf, fun x hx ↦ ?_, fun x hx ↦ ?_⟩
  · rw [digit_encode hf, if_pos hx]
  · rw [digit_encode hf, if_neg hx]

/-! ## Changing one value -/

/-- The valuation `i` with another value of the copy `x`. -/
def put (sp : Space) (i : Nat) (x : VarId) (value : Nat) : Nat :=
  sp.encode (Function.update (sp.digit i) x value)

section Put

variable {i value : Nat} {x : VarId} (hv : value < sp.domainSize x)

include hv

private theorem update_digit_lt (y : VarId) :
    Function.update (sp.digit i) x value y < sp.domainSize y := by
  by_cases hy : y = x
  · rwa [hy, Function.update_self]
  · rw [Function.update_of_ne hy]
    exact sp.digit_lt i y

theorem put_lt : sp.put i x value < sp.size := encode_lt (update_digit_lt hv)

theorem digit_put_self : sp.digit (sp.put i x value) x = value := by
  rw [put, digit_encode (update_digit_lt hv), Function.update_self]

theorem digit_put_of_ne {y : VarId} (hy : y ≠ x) :
    sp.digit (sp.put i x value) y = sp.digit i y := by
  rw [put, digit_encode (update_digit_lt hv), Function.update_of_ne hy]

end Put

/-! ## Moving along an axis -/

theorem add_stride_eq_put {i k : Nat} {x : VarId} (hi : i < sp.size)
    (hx : x ∈ sp.registry.ids) : i + k * sp.stride x = sp.put i x (sp.digit i x + k) := by
  rw [Registry.mem_ids, ← length_sizes] at hx
  have hf : (fun j ↦ Function.update (sp.digit i) x (sp.digit i x + k) ⟨j⟩)
      = Function.update (fun j ↦ sp.digit i ⟨j⟩) x.index (sp.digit i x + k) := by
    funext j
    by_cases hj : j = x.index
    · subst hj
      rw [Function.update_self, Function.update_self]
    · rw [Function.update_of_ne hj, Function.update_of_ne fun h ↦ hj (congrArg VarId.index h)]
  have henc : encodeDigits sp.sizes (fun j ↦ sp.digit i ⟨j⟩) = i := encode_digit hi
  rw [put, encode, hf, encodeDigits_update_add (fun j ↦ sp.digit i ⟨j⟩) hx, henc, stride,
    volume_eq_prod]

theorem add_stride_lt {i k : Nat} {x : VarId} (hi : i < sp.size) (hx : x ∈ sp.registry.ids)
    (hk : sp.digit i x + k < sp.domainSize x) : i + k * sp.stride x < sp.size := by
  rw [add_stride_eq_put hi hx]
  exact put_lt hk

theorem digit_add_stride_self {i k : Nat} {x : VarId} (hi : i < sp.size)
    (hx : x ∈ sp.registry.ids) (hk : sp.digit i x + k < sp.domainSize x) :
    sp.digit (i + k * sp.stride x) x = sp.digit i x + k := by
  rw [add_stride_eq_put hi hx, digit_put_self hk]

theorem digit_add_stride_of_ne {i k : Nat} {x y : VarId} (hi : i < sp.size)
    (hx : x ∈ sp.registry.ids) (hk : sp.digit i x + k < sp.domainSize x) (hy : y ≠ x) :
    sp.digit (i + k * sp.stride x) y = sp.digit i y := by
  rw [add_stride_eq_put hi hx, digit_put_of_ne hk hy]

/-- Every valuation is reached along the axis of `x` from one whose digit there is 0. -/
theorem exists_base {i : Nat} {x : VarId} (hi : i < sp.size) (hx : x ∈ sp.registry.ids) :
    ∃ b, b < sp.size ∧ sp.digit b x = 0 ∧ (∀ y, y ≠ x → sp.digit b y = sp.digit i y) ∧
      i = b + sp.digit i x * sp.stride x := by
  have h0 : 0 < sp.domainSize x := sp.domainSize_pos x
  have hbx : sp.digit (sp.put i x 0) x = 0 := digit_put_self h0
  have hlt : sp.put i x 0 < sp.size := put_lt h0
  have hk : sp.digit (sp.put i x 0) x + sp.digit i x < sp.domainSize x := by
    rw [hbx, Nat.zero_add]
    exact sp.digit_lt i x
  refine ⟨sp.put i x 0, hlt, hbx, fun y hy ↦ digit_put_of_ne h0 hy,
    eq_of_digit_eq hi (add_stride_lt hlt hx hk) fun y ↦ ?_⟩
  by_cases hy : y = x
  · rw [hy, digit_add_stride_self hlt hx hk, hbx, Nat.zero_add]
  · rw [digit_add_stride_of_ne hlt hx hk hy, digit_put_of_ne h0 hy]

/-! ## Agreement and renaming -/

/-- Two valuations agree on all copies outside `xs`. -/
def AgreeOff (sp : Space) (xs : List VarId) (i j : Nat) : Prop :=
  ∀ x, x ∉ xs → sp.digit i x = sp.digit j x

theorem AgreeOff.symm {xs : List VarId} {i j : Nat} (h : sp.AgreeOff xs i j) :
    sp.AgreeOff xs j i := fun x hx ↦ (h x hx).symm

theorem AgreeOff.refl (xs : List VarId) (i : Nat) : sp.AgreeOff xs i i := fun _ _ ↦ rfl

theorem AgreeOff.trans {xs : List VarId} {i j k : Nat} (h : sp.AgreeOff xs i j)
    (h' : sp.AgreeOff xs j k) : sp.AgreeOff xs i k := fun x hx ↦ (h x hx).trans (h' x hx)

/-- The valuation that reads the copy `σ x` of `i` wherever `x` is read. -/
def rename (sp : Space) (σ : VarId → VarId) (i : Nat) : Nat := sp.encode fun x ↦ sp.digit i (σ x)

section Rename

variable {σ τ : VarId → VarId}

private theorem rename_digit_lt (hσ : ∀ x, sp.domainSize (σ x) = sp.domainSize x) (i : Nat)
    (x : VarId) : sp.digit i (σ x) < sp.domainSize x := hσ x ▸ sp.digit_lt i (σ x)

theorem rename_lt (hσ : ∀ x, sp.domainSize (σ x) = sp.domainSize x) (i : Nat) :
    sp.rename σ i < sp.size := encode_lt (rename_digit_lt hσ i)

theorem digit_rename (hσ : ∀ x, sp.domainSize (σ x) = sp.domainSize x) (i : Nat) (x : VarId) :
    sp.digit (sp.rename σ i) x = sp.digit i (σ x) := digit_encode (rename_digit_lt hσ i) x

theorem rename_rename (hτ : ∀ x, sp.domainSize (τ x) = sp.domainSize x) (i : Nat) :
    sp.rename σ (sp.rename τ i) = sp.rename (fun x ↦ τ (σ x)) i := by
  unfold rename
  congr 1
  funext x
  exact digit_rename hτ i (σ x)

theorem rename_id {i : Nat} (hi : i < sp.size) : sp.rename (fun x ↦ x) i = i := encode_digit hi

end Rename

/-- The valuation with every variable and its twin exchanged. -/
def swap (sp : Space) (i : Nat) : Nat := sp.rename VarId.twin i

theorem swap_lt (sp : Space) (i : Nat) : sp.swap i < sp.size := rename_lt sp.domainSize_twin i

@[simp] theorem digit_swap (sp : Space) (i : Nat) (x : VarId) :
    sp.digit (sp.swap i) x = sp.digit i x.twin := digit_rename sp.domainSize_twin i x

end Space

end JusticeViolation

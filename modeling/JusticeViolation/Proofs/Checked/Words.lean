import JusticeViolation.Proofs.Checked.Basic
import JusticeViolation.Proofs.Space.Valuation

/-!
# Index arithmetic in words

Sets of valuations are masks here, and no number is too large for a mask. Where sets are kept as
collections of indices instead, a literal is a run of equal blocks, a quantifier puts every value in
the place of a digit, and priming adds differences of strides, all in words of 32, 64 or 128 bits. A
word that is too small would leave a wrong index behind without a trace.

This module has the arithmetic on indices, one number at a time. Every intermediate number has to
fit its word; one that does not stops the evaluation, just like a look-up that finds nothing. The
running product that decides whether a registry is accepted is watched in the same way, and it is
shown here to stay in range: it is given up as soon as it exceeds what 32 bits can count, and before
that one more factor cannot carry it beyond 64.
-/

namespace JusticeViolation

/-! ## Words -/

namespace Checked

/-- A number in a word of so many bits. -/
def word (bits n : Nat) : Checked Nat := if n < 2 ^ bits then .ok n else .error .outOfRange

/-- A whole number in a signed word of 64 bits. -/
def signed (n : Int) : Checked Int :=
  if -0x8000000000000000 ≤ n ∧ n < 0x8000000000000000 then .ok n else .error .outOfRange

/-- A whole number in an unsigned word of 32 bits. -/
def unsigned (n : Int) : Checked Nat :=
  if 0 ≤ n ∧ n < 0x100000000 then .ok n.toNat else .error .outOfRange

/-- A quotient. -/
def quotient (a b : Nat) : Checked Nat := if b = 0 then .error .outOfRange else .ok (a / b)

theorem word_of_lt {bits n : Nat} (h : n < 2 ^ bits) : word bits n = .ok n := if_pos h

theorem signed_of_mem {n : Int} (h : -0x8000000000000000 ≤ n ∧ n < 0x8000000000000000) :
    signed n = .ok n := if_pos h

theorem unsigned_of_lt {n : Nat} (h : n < 0x100000000) : unsigned n = .ok n :=
  if_pos ⟨Int.natCast_nonneg n, by omega⟩

theorem quotient_of_pos {a b : Nat} (h : 0 < b) : quotient a b = .ok (a / b) :=
  if_neg (Nat.ne_of_gt h)

end Checked

open Checked

/-! ## Strides -/

/-- What index arithmetic reads. -/
structure IndexTable where
  /-- For every copy, the distance between neighbours. -/
  strides : List Nat
  /-- For every copy, the number of values. -/
  sizes : List Nat
  /-- The number of indices. -/
  total : Nat
  /-- The copies that priming exchanges. -/
  twins : List (VarId × VarId)

/-- The strides of copies of the given sizes and the number of their valuations; the running product
is given up where it goes beyond the limit. -/
def checkedStrides (total : Nat) : List Nat → Checked (Except Fault (List Nat × Nat))
  | [] => return .ok ([], total)
  | n :: ns => do
    let stride ← word 64 total
    let size ← word 32 n
    let product ← word 128 (total * size)
    if Space.limit < product then return .error (.spaceTooLarge product Space.limit)
    else
      let rest ← checkedStrides product ns
      return rest.map fun found ↦ (stride :: found.1, found.2)

/-- The table of a registry. -/
def Registry.checkedTable (r : Registry) : Checked (Except Fault IndexTable) := do
  match ← checkedStrides 1 r.sizes with
  | .error fault => return .error fault
  | .ok (strides, product) =>
    let total ← word 32 product
    return .ok ⟨strides, r.sizes, total, r.currentIds.map fun x ↦ (x, x.twin)⟩

/-- The table that belongs to a space. -/
def Space.table (sp : Space) : IndexTable where
  strides := sp.registry.ids.map sp.stride
  sizes := sp.sizes
  total := sp.size
  twins := sp.registry.currentIds.map fun x ↦ (x, x.twin)

/-- The strides that start from `total`. -/
def stridesFrom (total : Nat) : List Nat → List Nat
  | [] => []
  | n :: ns => total :: stridesFrom (total * n) ns

theorem getElem?_stridesFrom {total k : Nat} {sizes : List Nat} (hk : k < sizes.length) :
    (stridesFrom total sizes)[k]? = some (total * volume (sizes.take k)) := by
  induction sizes generalizing total k with
  | nil => simp at hk
  | cons n ns ih =>
    cases k with
    | zero => simp [stridesFrom, volume]
    | succ k =>
      rw [stridesFrom, List.getElem?_cons_succ, ih (Nat.lt_of_succ_lt_succ hk), List.take_succ_cons,
        volume, volume, List.foldr_cons, Nat.mul_assoc]

theorem length_stridesFrom (total : Nat) (sizes : List Nat) :
    (stridesFrom total sizes).length = sizes.length := by
  induction sizes generalizing total with
  | nil => rfl
  | cons n ns ih => rw [stridesFrom, List.length_cons, ih, List.length_cons]

/-- **Strides are computed in range**, whether the product is accepted or given up. -/
theorem checkedStrides_eq {total : Nat} {sizes : List Nat} (ht : total ≤ Space.limit)
    (hsizes : ∀ n ∈ sizes, n < 2 ^ 32) :
    checkedStrides total sizes = .ok (match Space.overflow? total sizes with
      | some product => .error (.spaceTooLarge product Space.limit)
      | none => .ok (stridesFrom total sizes, total * volume sizes)) := by
  have hlimit : Space.limit = 2 ^ 32 - 1 := rfl
  induction sizes generalizing total with
  | nil => simp [checkedStrides, Space.overflow?, stridesFrom, volume]
  | cons n ns ih =>
    have hn : n < 2 ^ 32 := hsizes n List.mem_cons_self
    have hproduct : total * n < 2 ^ 128 :=
      calc total * n ≤ 2 ^ 32 * 2 ^ 32 := Nat.mul_le_mul (by omega) hn.le
        _ < 2 ^ 128 := by decide
    rw [checkedStrides, word_of_lt (by omega), ok_bind, word_of_lt hn, ok_bind,
      word_of_lt hproduct, ok_bind, Space.overflow?]
    by_cases hlt : Space.limit < total * n
    · rw [if_pos hlt, if_pos hlt]
      rfl
    · rw [if_neg hlt, if_neg hlt,
        ih (Nat.le_of_not_lt hlt) fun k hk ↦ hsizes k (List.mem_cons_of_mem n hk), ok_bind]
      cases Space.overflow? (total * n) ns with
      | some product => rfl
      | none =>
        simp only [pure_eq_ok, Except.map, stridesFrom, volume, List.foldr_cons, Nat.mul_assoc]

theorem Space.strides_table (sp : Space) : sp.table.strides = stridesFrom 1 sp.sizes := by
  refine List.ext_getElem? fun k ↦ ?_
  rw [table, Registry.ids, List.map_map, List.getElem?_map, ← length_sizes]
  by_cases hk : k < sp.sizes.length
  · rw [List.getElem?_range hk, getElem?_stridesFrom hk, Nat.one_mul]
    rfl
  · have hle : sp.sizes.length ≤ k := Nat.le_of_not_lt hk
    rw [List.getElem?_eq_none (by rwa [List.length_range]),
      List.getElem?_eq_none (by rwa [length_stridesFrom])]
    rfl

/-- **A table is made in range** if it is made, and refused in range otherwise. -/
theorem Registry.checkedTable_eq {r : Registry} (h : ∀ v ∈ r.declared, v.size < 2 ^ 32) :
    r.checkedTable = .ok ((Space.ofRegistry r).map Space.table) := by
  have hsizes : ∀ n ∈ r.sizes, n < 2 ^ 32 := by
    intro n hn
    obtain ⟨v, hv, hmem⟩ := List.mem_flatMap.mp hn
    simp only [List.mem_cons, List.not_mem_nil, or_false, or_self] at hmem
    exact hmem ▸ h v hv
  rw [checkedTable, checkedStrides_eq (by decide) hsizes, ok_bind]
  cases hspace : Space.ofRegistry r with
  | error fault =>
    unfold Space.ofRegistry at hspace
    split at hspace
    · rename_i hover
      rw [hover]
      cases hspace
      rfl
    · cases hspace
  | ok sp =>
    have hr := Space.registry_of_ofRegistry hspace
    subst hr
    unfold Space.ofRegistry at hspace
    split at hspace
    · cases hspace
    · rename_i hover
      rw [hover, ← sp.sizes_eq, Nat.one_mul, ← sp.size_eq]
      have hfit : sp.size < 2 ^ 32 := Nat.lt_of_le_of_lt sp.size_le (by decide)
      dsimp only
      rw [word_of_lt hfit, ok_bind, ← sp.strides_table]
      rfl

/-! ## Digits -/

namespace IndexTable

variable (t : IndexTable)

/-- The value of the copy `x` at the index `i`. -/
def digit (i : Nat) (x : VarId) : Checked Nat := do
  let stride ← lookup t.strides x.index
  let size ← lookup t.sizes x.index
  remainder (← quotient i stride) size

/-! ## The operations -/

/-- The ranges of a literal from `base` on, each one a block behind the one before. -/
def ranges (value stride block : Nat) : Nat → Nat → Checked (List (Nat × Nat))
  | 0, _ => .error .unfinished
  | rounds + 1, base =>
    if base < t.total then do
      let offset ← word 64 (value * stride)
      let start ← word 64 (base + offset)
      let low ← word 32 start
      let high ← word 32 (← word 64 (start + stride))
      let next ← word 64 (base + block)
      let rest ← ranges value stride block rounds next
      return (low, high) :: rest
    else return []

/-- The ranges of the indices at which `x` has the given value; none if it has no such value. -/
def literal (x : VarId) (value : Nat) : Checked (List (Nat × Nat)) := do
  let stride ← lookup t.strides x.index
  let size ← lookup t.sizes x.index
  if value < size then
    let block ← word 64 (stride * size)
    t.ranges value stride block (t.total + 1) 0
  else return []

/-- The indices that differ from `i` in the value of `x` at most. -/
def variants (x : VarId) (i : Nat) : Checked (List Nat) := do
  let stride ← lookup t.strides x.index
  let size ← lookup t.sizes x.index
  let base ← minus i (← word 64 ((← t.digit i x) * stride))
  (List.range size).mapM fun value ↦ do
    let offset ← word 64 (value * stride)
    word 32 (← word 64 (base + offset))

/-- Drop what a collection of indices says about one copy. -/
def forgetOne (is : List Nat) (x : VarId) : Checked (List Nat) := do
  return (← is.mapM (t.variants x)).flatten

/-- Drop what a collection of indices says about some copies; nothing is dropped from nothing. -/
def forget (is : List Nat) : List VarId → Checked (List Nat)
  | [] => return is
  | x :: xs =>
    if is.isEmpty then return is
    else do
      let js ← t.forgetOne is x
      forget js xs

/-- Add to `out` what it takes to exchange the values that `i` gives to a pair of copies. -/
def exchange (i : Nat) (out : Int) (pair : VarId × VarId) : Checked Int := do
  let now ← signed (← t.digit i pair.1)
  let next ← signed (← t.digit i pair.2)
  let low ← signed (← lookup t.strides pair.1.index)
  let high ← signed (← lookup t.strides pair.2.index)
  let gain ← signed ((← signed (next - now)) * low)
  let loss ← signed ((← signed (now - next)) * high)
  signed (out + (← signed (gain + loss)))

/-- The index with every variable and its twin exchanged; the digits are those of `i` throughout. -/
def swap (i : Nat) : Checked Nat := do
  unsigned (← t.twins.foldlM (t.exchange i) i)

/-- Exchange every variable with its twin. -/
def prime (is : List Nat) : Checked (List Nat) := is.mapM t.swap

end IndexTable

end JusticeViolation

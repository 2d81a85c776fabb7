import JusticeViolation.Registry

/-!
# The space of valuations

A valuation gives every copy of every variable one of its values. Valuations are numbered in
mixed radix: the copies are the positions in the order of the registry, the first one varying
fastest, and the digit at a position is the value of that copy. A valuation is identified with
its number throughout, `Space.digit` being the way to read it.

Only spaces with at most `Space.limit` valuations are admitted. The sizes and their product are
kept beside the registry they come from, so that no operation has to count values again.
-/

namespace JusticeViolation

/-- The largest number of valuations of an admitted space. -/
def Space.limit : Nat := 0xffffffff

/-- The number of valuations of copies of the given sizes. -/
def volume (sizes : List Nat) : Nat := sizes.foldr (· * ·) 1

/-- The valuations of the variables of a registry. -/
structure Space where
  registry : Registry
  /-- The domain sizes of all copies. -/
  sizes : List Nat
  /-- The number of valuations. -/
  size : Nat
  sizes_eq : sizes = registry.sizes
  size_eq : size = volume sizes
  size_le : size ≤ Space.limit

namespace Space

/-- The first running product of `sizes`, starting from `total`, beyond the limit. -/
def overflow? (total : Nat) : List Nat → Option Nat
  | [] => none
  | n :: ns => if limit < total * n then some (total * n) else overflow? (total * n) ns

theorem mul_volume_le_of_overflow? {total : Nat} {sizes : List Nat} (ht : total ≤ limit)
    (h : overflow? total sizes = none) : total * volume sizes ≤ limit := by
  induction sizes generalizing total with
  | nil => simpa [volume] using ht
  | cons n ns ih =>
    unfold overflow? at h
    split at h
    · cases h
    · rename_i hle
      have := ih (Nat.le_of_not_lt hle) h
      rwa [volume, List.foldr_cons, ← Nat.mul_assoc]

/-- The space over a registry; the fault names the first running product beyond the limit. -/
def ofRegistry (r : Registry) : Except Fault Space :=
  match h : overflow? 1 r.sizes with
  | some total => .error (.spaceTooLarge total limit)
  | none =>
    .ok {
      registry := r
      sizes := r.sizes
      size := volume r.sizes
      sizes_eq := rfl
      size_eq := rfl
      size_le := by
        have := mul_volume_le_of_overflow? (by decide) h
        rwa [Nat.one_mul] at this }

/-- The number of values of a copy. -/
def domainSize (sp : Space) (x : VarId) : Nat := sp.sizes.getD x.index 1

/-- The distance between valuations that differ by one in the copy `x`. -/
def stride (sp : Space) (x : VarId) : Nat := volume (sp.sizes.take x.index)

/-- The value of the copy `x` in the valuation `i`. -/
def digit (sp : Space) (i : Nat) (x : VarId) : Nat := i / sp.stride x % sp.domainSize x

/-- The values of several copies in the valuation `i`. -/
def digits (sp : Space) (i : Nat) (xs : List VarId) : List Nat := xs.map (sp.digit i)

end Space

end JusticeViolation

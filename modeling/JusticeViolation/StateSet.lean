import JusticeViolation.Mask
import JusticeViolation.Space

/-!
# Sets of valuations

A set of valuations of a space is a bit mask of their numbers. The bound on the mask is part of
the type, so that equal sets are equal values and the Boolean operations obey their laws without
side conditions.

Two operations work along the axis of a copy. `forget` drops what a set says about some copies:
the layers of the axis are laid over one another, and the result is repeated along the axis.
`prime` exchanges every variable with its twin: the valuations with a given difference between the
values of the two copies move together to where the difference is reversed. Both use `cylinder`,
the mask of the valuations whose digit at one position is given.
-/

namespace JusticeViolation

/-- A set of valuations. -/
structure StateSet (sp : Space) where
  mask : Nat
  mask_lt : mask < Nat.pow 2 sp.size
deriving DecidableEq

namespace StateSet

variable {sp : Space}

/-! ## Membership and Boolean operations -/

/-- The members of a mask that are valuations. -/
def ofMask (m : Nat) : StateSet sp := ⟨m % Nat.pow 2 sp.size, Nat.mod_lt _ (Nat.two_pow_pos _)⟩

/-- Whether a valuation belongs to a set. -/
def contains (s : StateSet sp) (i : Nat) : Bool := s.mask.testBit i

instance : Membership Nat (StateSet sp) := ⟨fun s i ↦ s.contains i = true⟩

instance (i : Nat) (s : StateSet sp) : Decidable (i ∈ s) :=
  inferInstanceAs (Decidable (s.contains i = true))

instance : EmptyCollection (StateSet sp) := ⟨⟨0, Nat.two_pow_pos _⟩⟩

/-- Every valuation. -/
def univ : StateSet sp := ⟨Mask.below sp.size, Nat.sub_lt (Nat.two_pow_pos _) Nat.one_pos⟩

instance : Union (StateSet sp) := ⟨fun s t ↦ ⟨s.mask ||| t.mask, Nat.or_lt_two_pow s.2 t.2⟩⟩

instance : Inter (StateSet sp) := ⟨fun s t ↦ ⟨s.mask &&& t.mask, Nat.and_lt_two_pow _ t.2⟩⟩

instance : SDiff (StateSet sp) :=
  ⟨fun s t ↦ ⟨s.mask ^^^ (s.mask &&& t.mask),
    Nat.xor_lt_two_pow s.2 (Nat.and_lt_two_pow _ t.2)⟩⟩

/-- The valuations outside a set. -/
def compl (s : StateSet sp) : StateSet sp := univ \ s

/-- The valuations that satisfy `t` if they satisfy `s`. -/
def implies (s t : StateSet sp) : StateSet sp := s.compl ∪ t

/-- Whether a set has no member. -/
def isEmpty (s : StateSet sp) : Bool := s.mask == 0

/-- Whether every member of `s` is one of `t`. -/
def subset (s t : StateSet sp) : Bool := (s \ t).isEmpty

/-- Whether two sets have a member in common. -/
def meets (s t : StateSet sp) : Bool := !(s ∩ t).isEmpty

/-- The union of a list of sets. -/
def unionAll (ss : List (StateSet sp)) : StateSet sp := ss.foldl (· ∪ ·) ∅

/-- The intersection of a list of sets. -/
def interAll (ss : List (StateSet sp)) : StateSet sp := ss.foldl (· ∩ ·) univ

/-! ## Along the axes -/

/-- `m` repeated over positions of the given sizes, the first of which has stride `stride`. -/
def fill (m : Nat) (stride : Nat) : List Nat → Nat
  | [] => m
  | n :: ns => fill (Mask.tile m stride n) (stride * n) ns

/-- The mask of the valuations whose digit at position `position` is `digit`. -/
def cylinder (digit : Nat) (stride : Nat) : Nat → List Nat → Nat
  | _, [] => 0
  | 0, n :: ns =>
    if digit < n then fill (Mask.below stride <<< (digit * stride)) (stride * n) ns else 0
  | position + 1, n :: ns => cylinder digit (stride * n) position ns

/-- The valuations in which `x` has the given value; none if it has no such value. -/
def literal (x : VarId) (value : Nat) : StateSet sp :=
  ofMask (cylinder value 1 x.index sp.sizes)

/-- Drop what a set says about one copy. -/
def forgetOne (s : StateSet sp) (x : VarId) : StateSet sp :=
  let stride := sp.stride x
  let size := sp.domainSize x
  let base := (literal x 0 : StateSet sp).mask
  ofMask (Mask.tile (Mask.fold s.mask stride size &&& base) stride size)

/-- The valuations that agree with some member of `s` outside `xs`. -/
def forget (s : StateSet sp) (xs : List VarId) : StateSet sp := xs.foldl forgetOne s

/-- The valuations all of whose variants on `xs` belong to `s`. -/
def always (s : StateSet sp) (xs : List VarId) : StateSet sp := (s.compl.forget xs).compl

/-- Exchange the values of a current copy and its twin. The valuations are taken by the difference
between the two values: those with values `k` and `k + d` move to where the values are `k + d` and
`k`, and the other way round. -/
def exchange (s : StateSet sp) (x : VarId) : StateSet sp :=
  let low := sp.stride x
  let high := sp.stride x.twin
  let size := sp.domainSize x
  let base := (literal x 0 ∩ literal x.twin 0 : StateSet sp).mask
  ofMask (Mask.unionRange size fun d ↦
    let equal := Mask.tile base (low + high) (size - d)
    (s.mask >>> (d * high) &&& equal) <<< (d * low) |||
      (s.mask >>> (d * low) &&& equal) <<< (d * high))

/-- Exchange every variable with its twin. -/
def prime (s : StateSet sp) : StateSet sp := sp.registry.currentIds.foldl exchange s

/-- The successors of `s` along `steps`, a relation between current and next values. -/
def succ (s steps : StateSet sp) : StateSet sp :=
  ((s ∩ steps).forget sp.registry.currentIds).prime

/-- The predecessors of `s` along `steps`. -/
def pred (steps s : StateSet sp) : StateSet sp :=
  (steps ∩ s.prime).forget sp.registry.primedIds

/-! ## Members -/

/-- The least member. -/
def least? (s : StateSet sp) : Option Nat := Mask.least? s.mask

/-- The number of members. -/
def card (s : StateSet sp) : Nat := Mask.card (sp.size.log2 + 1) s.mask

/-- The values of `xs` in the least member. -/
def sample? (s : StateSet sp) (xs : List VarId) : Option (List Nat) :=
  s.least?.map fun i ↦ sp.digits i xs

/-- The valuations with the given values. -/
def cube (assignment : List (VarId × Nat)) : StateSet sp :=
  interAll (assignment.map fun a ↦ literal a.1 a.2)

/-- The valuations that agree with the least member of `s` on `xs`. -/
def sampleCube? (s : StateSet sp) (xs : List VarId) : Option (StateSet sp) :=
  (s.sample? xs).map fun values ↦ cube (xs.zip values)

/-- The number of valuations of `xs` that extend to a member. -/
def count (s : StateSet sp) (xs : List VarId) : Nat :=
  let others := sp.registry.ids.filter fun x ↦ !xs.contains x
  (s.forget others).card / volume (others.map sp.domainSize)

/-- The copies on whose value membership depends. -/
def support (s : StateSet sp) : List VarId :=
  sp.registry.ids.filter fun x ↦ s.forgetOne x != s

/-- The valuations of `xs` that extend to a member, at most `limit` of them, each listed when the
least member that extends it is met. -/
def enumerate (s : StateSet sp) (xs : List VarId) : Nat → List (List Nat)
  | 0 => []
  | limit + 1 =>
    match s.sample? xs with
    | none => []
    | some values => values :: enumerate (s \ cube (xs.zip values)) xs limit

end StateSet

end JusticeViolation

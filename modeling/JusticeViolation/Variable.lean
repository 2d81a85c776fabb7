import JusticeViolation.Domain

/-!
# Variables and their two copies

A game is played over finite-domain variables. Every declared variable exists in two copies, the
current one and the next-state one, which share role and domain; the name of the next-state copy
has one more prime. Copies are numbered through: the variable declared at position `i` has the
copies `2 i` (current) and `2 i + 1` (next), so whether a copy is primed, and which copy is its
twin, can be read off the number alone.

A variable is a domain with a name and a role. That its name does not look like the name of a
next-state copy is part of the type.
-/

namespace JusticeViolation

/-- Who chooses the next value of a variable. -/
inductive Role
  /-- Chosen by the environment. -/
  | env
  /-- Chosen by the system. -/
  | sys
  /-- Chosen by neither player: bookkeeping, such as a row marker. -/
  | aux
deriving DecidableEq, Repr

/-- The name of a role in a memo document. -/
def Role.name : Role → String
  | env => "env"
  | sys => "sys"
  | aux => "aux"

/-- The name of a role in running text. -/
def Role.label : Role → String
  | env => "Env"
  | sys => "Sys"
  | aux => "Aux"

/-- The number of one copy of a variable. -/
structure VarId where
  index : Nat
deriving DecidableEq, Repr

namespace VarId

/-- Odd numbers belong to next-state copies. -/
def isPrimed (x : VarId) : Bool := x.index % 2 == 1

/-- The other copy of the same variable. -/
def twin (x : VarId) : VarId := ⟨if x.isPrimed then x.index - 1 else x.index + 1⟩

/-- How a copy is shown when there is no name to show. -/
def display (x : VarId) : String := s!"v{x.index}"

theorem isPrimed_twin (x : VarId) : x.twin.isPrimed = !x.isPrimed := by
  obtain ⟨n⟩ := x
  rcases Nat.mod_two_eq_zero_or_one n with h | h <;> simp [twin, isPrimed, h] <;> omega

theorem twin_twin (x : VarId) : x.twin.twin = x := by
  have h := isPrimed_twin x
  unfold twin at h ⊢
  cases hx : x.isPrimed
  · simp [hx] at h ⊢
    simp [h]
  · simp [hx] at h ⊢
    obtain ⟨n⟩ := x
    have : n % 2 = 1 := by simpa [isPrimed] using hx
    simp [h]
    omega

end VarId

/-- A name that can be declared: not empty, and not ending in a prime. -/
def validName (name : String) : Bool :=
  match name.toList.getLast? with
  | none => false
  | some c => c != '\''

/-- A declared variable. -/
structure Variable extends Domain where
  name : String
  role : Role
  validName_name : validName name = true

/-- The name of the next-state copy. -/
def Variable.primedName (v : Variable) : String := v.name ++ "'"

end JusticeViolation

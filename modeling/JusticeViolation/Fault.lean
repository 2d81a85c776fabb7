/-!
# Faults of variables and formulas

What can go wrong before a single set is computed: a declaration that a registry refuses, a
formula that names something unknown, a valuation space that is too large to be indexed. Each
cause is a constructor that carries what is needed to explain it; the wording is in one place,
`Fault.message`, so that no other module builds an explanation of its own.
-/

namespace JusticeViolation

/-- A cause for which a declaration, a formula or a valuation space is refused. -/
inductive Fault
  | duplicateVariable (name : String)
  | emptyDomain (name : String)
  | duplicateValue (name value : String)
  | invalidName (name : String)
  | unknownVariable (name : String)
  | unknownValue (name value : String)
  | disjointDomains (name other : String)
  | spaceTooLarge (size limit : Nat)
deriving DecidableEq, Repr

namespace Fault

/-- The explanation shown to a user. -/
def message : Fault → String
  | duplicateVariable name => s!"Variable '{name}' is declared more than once"
  | emptyDomain name => s!"Variable '{name}' has an empty domain"
  | duplicateValue name value => s!"Variable '{name}' declares value '{value}' more than once"
  | invalidName name =>
    s!"Invalid variable name '{name}' (names must be non-empty and must not end with a prime)"
  | unknownVariable name => s!"Unknown variable '{name}'"
  | unknownValue name value => s!"Unknown value '{value}' for variable '{name}'"
  | disjointDomains name other => s!"Variables '{name}' and '{other}' share no value names"
  | spaceTooLarge size limit =>
    s!"State space of {size} valuations exceeds the explicit backend limit of {limit}"

end Fault

end JusticeViolation

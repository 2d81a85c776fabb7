import JusticeViolation.StateSet

/-!
# Facts of a set of states

A fact says that a variable has a certain value. The facts of a set are those that hold in all
its members; they are looked for among the current variables that matter to the set. An empty set
has none.
-/

namespace JusticeViolation

/-- A variable and its value, by name. -/
structure Fact where
  name : String
  value : String
deriving DecidableEq, Repr

/-- How a fact is shown. -/
def Fact.text (f : Fact) : String := s!"{f.name} = {f.value}"

namespace StateSet

variable {sp : Space}

/-- The one value of `x` in all members of `s`. -/
def fixedValue? (s : StateSet sp) (x : VarId) : Option Nat :=
  (List.range (sp.domainSize x)).find? fun value ↦ s ∩ literal x value == s

/-- The facts of `s` about current variables outside `skip`. -/
def facts (s : StateSet sp) (skip : List VarId) : List Fact :=
  if s.isEmpty then []
  else
    (s.support.filter fun x ↦ !x.isPrimed && !skip.contains x).filterMap fun x ↦
      (s.fixedValue? x).map fun value ↦
        ⟨sp.registry.name x, sp.registry.valueName x value⟩

end StateSet

end JusticeViolation

import JusticeViolation.StateSet

/-!
# Formulas

Every set of a memo is written as a formula over names of variables and values; a next-state copy
is named with a trailing prime. `Formula.compile` turns a formula into the set of valuations that
satisfy it. Leaves are compiled from left to right and the first faulty one decides the answer,
whatever stands beside it: no connective is cut short.
-/

namespace JusticeViolation

/-- A condition on valuations. -/
inductive Formula
  | top
  | bottom
  /-- The variable has the value of this name. -/
  | eq (name value : String)
  /-- Both variables have values of the same name. -/
  | same (name other : String)
  | not (body : Formula)
  | and (parts : List Formula)
  | or (parts : List Formula)
  | implies (premise conclusion : Formula)
  | iff (left right : Formula)
deriving Repr

namespace Formula

variable (sp : Space)

/-- The valuations in which `name` has the value `value`. -/
def compileEq (name value : String) : Except Fault (StateSet sp) := do
  let x ← sp.registry.require name
  match sp.registry.valueIndex? x value with
  | some k => .ok (.literal x k)
  | none => .error (.unknownValue name value)

/-- The pairs of positions at which two copies have a value name in common. -/
def sharedValues (x y : VarId) : List (Nat × Nat) :=
  (sp.registry.values x).zipIdx.filterMap fun (value, k) ↦
    (sp.registry.valueIndex? y value).map fun l ↦ (k, l)

/-- The valuations in which the values of `name` and `other` have the same name. -/
def compileSame (name other : String) : Except Fault (StateSet sp) := do
  let x ← sp.registry.require name
  let y ← sp.registry.require other
  match sharedValues sp x y with
  | [] => .error (.disjointDomains name other)
  | pairs => .ok (.unionAll (pairs.map fun (k, l) ↦ .literal x k ∩ .literal y l))

mutual

/-- The valuations that satisfy a formula. -/
def compile : Formula → Except Fault (StateSet sp)
  | top => .ok .univ
  | bottom => .ok ∅
  | eq name value => compileEq sp name value
  | same name other => compileSame sp name other
  | not body => do
    let s ← compile body
    return s.compl
  | and parts => do
    let ss ← compileAll parts
    return .interAll ss
  | or parts => do
    let ss ← compileAll parts
    return .unionAll ss
  | implies premise conclusion => do
    let s ← compile premise
    let t ← compile conclusion
    return s.implies t
  | iff left right => do
    let s ← compile left
    let t ← compile right
    return s.implies t ∩ t.implies s

/-- The sets of several formulas. -/
def compileAll : List Formula → Except Fault (List (StateSet sp))
  | [] => .ok []
  | f :: fs => do
    let s ← compile f
    let ss ← compileAll fs
    return s :: ss

end

end Formula

end JusticeViolation

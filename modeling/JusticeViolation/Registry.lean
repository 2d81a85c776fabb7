import JusticeViolation.Variable

/-!
# The registry of variables

A registry lists the declared variables of a game, with distinct names, and numbers their copies.
It grows by one declaration at a time and a refused declaration leaves it as it was; that names
stay distinct is part of the type, so a look-up by name is a search in the list of all names of
copies, and the number it answers is the position found.

A declaration is tested in a fixed order: the form of the name, the name against earlier ones, then
the domain, which is built only for a name that has been accepted.
-/

namespace JusticeViolation

/-- The variables of a game, in the order of their declaration. -/
structure Registry where
  declared : List Variable
  nodup_names : (declared.map (·.name)).Nodup

namespace Registry

/-- No variable at all. -/
def empty : Registry := ⟨[], .nil⟩

/-! ## Copies -/

/-- The number of copies. -/
def length (r : Registry) : Nat := 2 * r.declared.length

/-- The declared variable behind a copy. -/
def declaration? (r : Registry) (x : VarId) : Option Variable := r.declared[x.index / 2]?

/-- The names of all copies, by number. -/
def names (r : Registry) : List String := r.declared.flatMap fun v ↦ [v.name, v.primedName]

/-- The domain sizes of all copies, by number. -/
def sizes (r : Registry) : List Nat := r.declared.flatMap fun v ↦ [v.size, v.size]

/-- The name of a copy. -/
def name (r : Registry) (x : VarId) : String :=
  match r.declaration? x with
  | none => ""
  | some v => if x.isPrimed then v.primedName else v.name

/-- The names of the values of a copy. -/
def values (r : Registry) (x : VarId) : List String :=
  match r.declaration? x with
  | none => []
  | some v => v.values

/-- The number of values of a copy. -/
def domainSize (r : Registry) (x : VarId) : Nat := (r.values x).length

/-- The name of one value of a copy. -/
def valueName (r : Registry) (x : VarId) (value : Nat) : String := (r.values x).getD value ""

/-- The position of a value name in the domain of a copy. -/
def valueIndex? (r : Registry) (x : VarId) (value : String) : Option Nat :=
  (r.values x).idxOf? value

/-- All copies. -/
def ids (r : Registry) : List VarId := (List.range r.length).map VarId.mk

/-- The current copies. -/
def currentIds (r : Registry) : List VarId := r.ids.filter fun x ↦ !x.isPrimed

/-- The next-state copies. -/
def primedIds (r : Registry) : List VarId := r.ids.filter (·.isPrimed)

/-- The current or the next-state copies of the variables of one role. -/
def roleIds (r : Registry) (role : Role) (primed : Bool) : List VarId :=
  r.ids.filter fun x ↦ x.isPrimed == primed && (r.declaration? x).any (·.role == role)

/-! ## Look-up -/

/-- The copy of a given name. -/
def lookup? (r : Registry) (name : String) : Option VarId := (r.names.idxOf? name).map VarId.mk

/-- The copy of a given name; an unknown name is a fault. -/
def require (r : Registry) (name : String) : Except Fault VarId :=
  match r.lookup? name with
  | some x => .ok x
  | none => .error (.unknownVariable name)

/-! ## Declarations -/

/-- Append a variable whose name is new. -/
def push (r : Registry) (v : Variable) (h : v.name ∉ r.declared.map (·.name)) : Registry where
  declared := r.declared ++ [v]
  nodup_names := by
    rw [List.map_append, List.nodup_append]
    refine ⟨r.nodup_names, by simp, ?_⟩
    rintro a ha b hb rfl
    rw [List.map_singleton, List.mem_singleton] at hb
    exact h (hb ▸ ha)

/-- Declare a variable over a described domain; the answer is the number of its current copy. -/
def declareOver (r : Registry) (name : String) (role : Role) (description : Domain.Description) :
    Except Fault (Registry × VarId) :=
  if hname : validName name = true then
    if hnew : name ∈ r.declared.map (·.name) then .error (.duplicateVariable name)
    else
      match description.domain name with
      | .error fault => .error fault
      | .ok d => .ok (r.push ⟨d, name, role, hname⟩ hnew, ⟨r.length⟩)
  else .error (.invalidName name)

/-- Declare a variable by the names of its values. -/
def declare (r : Registry) (name : String) (role : Role) (values : List String) :
    Except Fault (Registry × VarId) :=
  r.declareOver name role (.listed values)

/-- Declare a variable with the values `0`, …, `size - 1`. -/
def declareRange (r : Registry) (name : String) (role : Role) (size : Nat) :
    Except Fault (Registry × VarId) :=
  r.declareOver name role (.range size)

/-- Declare a variable with the values `false` and `true`. -/
def declareBool (r : Registry) (name : String) (role : Role) : Except Fault (Registry × VarId) :=
  r.declareOver name role .boolean

theorem length_sizes (r : Registry) : r.sizes.length = r.length := by
  unfold sizes length
  induction r.declared with
  | nil => rfl
  | cons v vs ih => simp [List.flatMap_cons, ih]; omega

theorem pos_of_mem_sizes {r : Registry} {n : Nat} (h : n ∈ r.sizes) : 0 < n := by
  obtain ⟨v, -, hn⟩ := List.mem_flatMap.mp h
  simp only [List.mem_cons, List.not_mem_nil, or_false, or_self] at hn
  exact hn ▸ v.size_pos

end Registry

end JusticeViolation

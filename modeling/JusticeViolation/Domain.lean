import JusticeViolation.Fault

/-!
# Domains

A domain is what a variable ranges over: a list of values with distinct names, at least one. Values
are numbered by their positions. A domain is described by the names of its values, by their number,
or as Boolean; only a list of names has to be searched for repetitions, since different numbers have
different names.

A description is kept apart from the domain it describes: a number may stand for billions of values,
none of which should exist before the variable that wants them has been accepted.
-/

namespace JusticeViolation

/-- The values that a variable can have, by name. -/
structure Domain where
  values : List String
  values_ne_nil : values ≠ []
  nodup_values : values.Nodup

/-- How the values of a domain are given. -/
inductive Domain.Description
  /-- By name. -/
  | listed (values : List String)
  /-- The values `0`, …, `size - 1`. -/
  | range (size : Nat)
  /-- The values `false` and `true`. -/
  | boolean
deriving DecidableEq, Repr

/-! ## Repetitions -/

/-- The first value that repeats an earlier one. -/
def firstRepeat? (seen : List String) : List String → Option String
  | [] => none
  | v :: vs => if v ∈ seen then some v else firstRepeat? (v :: seen) vs

private theorem firstRepeat?_eq_none_aux (seen vs : List String) :
    firstRepeat? seen vs = none ↔ vs.Nodup ∧ ∀ v ∈ vs, v ∉ seen := by
  induction vs generalizing seen with
  | nil => simp [firstRepeat?]
  | cons v vs ih =>
    by_cases h : v ∈ seen
    · simp [firstRepeat?, h]
    · simp only [firstRepeat?, h, if_false, ih, List.nodup_cons, List.mem_cons, not_or]
      constructor
      · rintro ⟨hn, hs⟩
        refine ⟨⟨fun hv ↦ (hs v hv).1 rfl, hn⟩, ?_⟩
        rintro w (rfl | hw)
        · exact h
        · exact (hs w hw).2
      · rintro ⟨⟨hv, hn⟩, hs⟩
        exact ⟨hn, fun w hw ↦ ⟨fun e ↦ hv (e ▸ hw), hs w (Or.inr hw)⟩⟩

theorem firstRepeat?_eq_none_iff {vs : List String} : firstRepeat? [] vs = none ↔ vs.Nodup := by
  simp [firstRepeat?_eq_none_aux]

/-! ## Numbers as names -/

/-- The names `0`, …, `size - 1`. -/
def rangeValues (size : Nat) : List String := (List.range size).map toString

theorem toString_nat_inj {m n : Nat} (h : toString m = toString n) : m = n := by
  have hd := congrArg String.toList h
  simp only [Nat.toString_eq_repr, Nat.toList_repr] at hd
  simpa using congrArg (fun digits ↦ Nat.ofDigitChars 10 digits 0) hd

theorem nodup_rangeValues (size : Nat) : (rangeValues size).Nodup :=
  List.Pairwise.map _ (fun _ _ hne h ↦ hne (toString_nat_inj h)) List.nodup_range

namespace Domain

variable (d : Domain)

/-- The number of values. -/
def size : Nat := d.values.length

theorem size_pos : 0 < d.size := List.length_pos_iff.mpr d.values_ne_nil

/-- The position of a value name. -/
def valueIndex? (value : String) : Option Nat := d.values.idxOf? value

/-- The domain of the values `false` and `true`. -/
def boolean : Domain := ⟨["false", "true"], by simp, by simp⟩

/-- The domain of the given values; `name` is the variable to be blamed. -/
def ofValues (name : String) (values : List String) : Except Fault Domain :=
  if hne : values = [] then .error (.emptyDomain name)
  else
    match h : firstRepeat? [] values with
    | some value => .error (.duplicateValue name value)
    | none => .ok ⟨values, hne, firstRepeat?_eq_none_iff.mp h⟩

/-- The domain of the values `0`, …, `size - 1`; `name` is the variable to be blamed. -/
def ofSize (name : String) (size : Nat) : Except Fault Domain :=
  if h : size = 0 then .error (.emptyDomain name)
  else .ok ⟨rangeValues size, by simpa [rangeValues] using h, nodup_rangeValues size⟩

/-- The domain of a description; `name` is the variable to be blamed. -/
def Description.domain (name : String) : Description → Except Fault Domain
  | listed values => ofValues name values
  | range size => ofSize name size
  | boolean => .ok .boolean

end Domain

end JusticeViolation

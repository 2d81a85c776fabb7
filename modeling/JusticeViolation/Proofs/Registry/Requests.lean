import JusticeViolation.Memo.Document
import JusticeViolation.Proofs.Registry

/-!
# Requests for variables

Variables are declared by requests, in one of four forms: with listed values, with a range, as
Boolean, or as the row marker of a game. A request is granted exactly if its name is well formed and
new and its values are some and distinct, and a granted one adds one variable behind the others. All
that is said here about a run of requests comes from this one step, `Registry.answer_cases`: the
number that is answered, what the registry says about the two copies under this number and the next,
and that a later request leaves both alone.

A document that has a registry makes such a run: a request for each declaration, and one for the row
marker behind them. So what holds after any run holds of the registry of a document.
-/

namespace JusticeViolation

/-! ## Values of a description -/

namespace Domain.Description

variable {name : String} {description : Domain.Description}

/-- The values that are described. -/
def values : Domain.Description → List String
  | listed values => values
  | range size => rangeValues size
  | boolean => ["false", "true"]

theorem values_of_domain_eq_ok {d : Domain} (h : description.domain name = .ok d) :
    d.values = description.values := by
  cases description with
  | listed values =>
    rw [domain, Domain.ofValues] at h
    split at h
    · cases h
    · split at h
      · cases h
      · rw [← Except.ok.inj h, Description.values]
  | range size =>
    rw [domain, Domain.ofSize] at h
    split at h
    · cases h
    · rw [← Except.ok.inj h, Description.values]
  | boolean =>
    rw [← Except.ok.inj h]
    rfl

/-- What describes some distinct values describes a domain. -/
theorem exists_domain_iff (description : Description) (name : String) :
    (∃ d, description.domain name = .ok d) ↔
      description.values ≠ [] ∧ description.values.Nodup := by
  constructor
  · rintro ⟨d, h⟩
    rw [← values_of_domain_eq_ok h]
    exact ⟨d.values_ne_nil, d.nodup_values⟩
  · rintro ⟨hne, hnodup⟩
    cases description with
    | listed values =>
      have hsome : values ≠ [] := hne
      have hdistinct : firstRepeat? [] values = none := firstRepeat?_eq_none_iff.mpr hnodup
      rw [domain, Domain.ofValues, dif_neg hsome]
      split
      · rename_i value hvalue
        rw [hdistinct] at hvalue
        cases hvalue
      · exact ⟨_, rfl⟩
    | range size =>
      have hsize : size ≠ 0 := by
        rintro rfl
        exact hne rfl
      rw [domain, Domain.ofSize, dif_neg hsize]
      exact ⟨_, rfl⟩
    | boolean => exact ⟨_, rfl⟩

end Domain.Description

namespace Registry

variable {r : Registry}

/-! ## Requests -/

/-- A request for a new variable. -/
inductive Request
  | listed (name : String) (role : Role) (values : List String)
  | range (name : String) (role : Role) (size : Nat)
  | boolean (name : String) (role : Role)
  | rowMarker (rows : Nat)
deriving Repr

namespace Request

/-- Declare what is requested. -/
def declare (r : Registry) : Request → Except Fault (Registry × VarId)
  | listed name role values => r.declare name role values
  | range name role size => r.declareRange name role size
  | boolean name role => r.declareBool name role
  | rowMarker rows => r.declareRowMarker rows

/-- The name that is requested. -/
def name : Request → String
  | listed name _ _ | range name _ _ | boolean name _ => name
  | rowMarker _ => rowMarkerName

/-- The role that is requested. -/
def role : Request → Role
  | listed _ role _ | range _ role _ | boolean _ role => role
  | rowMarker _ => .aux

/-- The domain that is requested. -/
def description : Request → Domain.Description
  | listed _ _ values => .listed values
  | range _ _ size => .range size
  | boolean _ _ => .boolean
  | rowMarker rows => .range (rowMarkerWord (max rows 1))

/-- The values that are requested. -/
def values (q : Request) : List String := q.description.values

theorem declare_eq (q : Request) (r : Registry) :
    q.declare r = r.declareOver q.name q.role q.description := by
  cases q <;> rfl

end Request

/-- The answer to a request, with the registry afterwards: a refused request leaves it as it is. -/
def answer (r : Registry) (q : Request) : Registry × Except Fault VarId :=
  match q.declare r with
  | .ok (s, x) => (s, .ok x)
  | .error fault => (r, .error fault)

/-- The answers to requests that are made one after another. -/
def serve (r : Registry) : List Request → Registry × List (Except Fault VarId)
  | [] => (r, [])
  | q :: qs =>
    let (s, found) := r.answer q
    let (last, answers) := s.serve qs
    (last, found :: answers)

theorem serve_cons (r : Registry) (q : Request) (qs : List Request) :
    r.serve (q :: qs) = (((r.answer q).1.serve qs).1,
      (r.answer q).2 :: ((r.answer q).1.serve qs).2) := rfl

/-- The requests that were granted, each with its answer. -/
def granted (qs : List Request) (answers : List (Except Fault VarId)) : List (Request × VarId) :=
  (qs.zip answers).filterMap fun (q, found) ↦ found.toOption.map (q, ·)

/-- **A request** is refused and changes nothing, or adds the variable that it asks for. -/
theorem answer_cases (r : Registry) (q : Request) :
    (∃ fault, q.declare r = .error fault ∧ r.answer q = (r, .error fault)) ∨
    ∃ (v : Variable) (hnew : v.name ∉ r.declared.map (·.name)),
      v.name = q.name ∧ v.role = q.role ∧ v.values = q.values ∧
      q.declare r = .ok (r.push v hnew, ⟨r.length⟩) ∧
      r.answer q = (r.push v hnew, .ok ⟨r.length⟩) := by
  rw [answer, q.declare_eq, declareOver]
  split
  · rename_i hname
    split
    · exact Or.inl ⟨_, rfl, rfl⟩
    · rename_i hnew
      cases hd : q.description.domain q.name with
      | error fault => exact Or.inl ⟨fault, rfl, rfl⟩
      | ok d =>
        exact Or.inr ⟨⟨d, q.name, q.role, hname⟩, hnew, rfl, rfl,
          Domain.Description.values_of_domain_eq_ok hd, rfl, rfl⟩
  · exact Or.inl ⟨_, rfl, rfl⟩

/-- **Granted is what is well formed**, new, and asks for some distinct values. -/
theorem exists_declare_iff {q : Request} : (∃ s, q.declare r = .ok s) ↔
    validName q.name = true ∧ q.name ∉ r.declared.map (·.name) ∧ q.values ≠ [] ∧
      q.values.Nodup := by
  rw [Request.values, ← Domain.Description.exists_domain_iff q.description q.name, q.declare_eq,
    declareOver]
  split
  · rename_i hname
    rw [and_iff_right hname]
    split
    · rename_i hold
      simp [hold]
    · rename_i hnew
      rw [and_iff_right hnew]
      cases q.description.domain q.name <;> simp
  · rename_i hname
    simp [hname]

/-! ## What is granted -/

theorem granted_cons_ok (q : Request) (qs : List Request) (x : VarId)
    (answers : List (Except Fault VarId)) :
    granted (q :: qs) (.ok x :: answers) = (q, x) :: granted qs answers := rfl

theorem length_push (r : Registry) (v : Variable) (hnew : v.name ∉ r.declared.map (·.name)) :
    (r.push v hnew).length = r.length + 2 := by
  rw [length, push, List.length_append, List.length_singleton, Nat.mul_add, length]

/-- Later requests leave earlier variables alone. -/
theorem declared_prefix_serve (r : Registry) (qs : List Request) :
    r.declared <+: (r.serve qs).1.declared := by
  induction qs generalizing r with
  | nil => exact List.prefix_refl _
  | cons q qs ih =>
    rw [serve_cons]
    rcases r.answer_cases q with ⟨fault, -, h⟩ | ⟨v, hnew, -, -, -, -, h⟩
    · rw [h]
      exact ih r
    · rw [h]
      exact (List.prefix_append _ _).trans (ih (r.push v hnew))

theorem serve_append (r : Registry) (qs ps : List Request) :
    r.serve (qs ++ ps) = (((r.serve qs).1.serve ps).1,
      (r.serve qs).2 ++ ((r.serve qs).1.serve ps).2) := by
  induction qs generalizing r with
  | nil => rfl
  | cons q qs ih =>
    rw [List.cons_append, serve_cons, ih]
    rfl

/-- Every granted request has added one variable. -/
theorem length_serve (r : Registry) (qs : List Request) :
    (r.serve qs).1.length = r.length + 2 * (granted qs (r.serve qs).2).length := by
  induction qs generalizing r with
  | nil => rfl
  | cons q qs ih =>
    rw [serve_cons]
    rcases r.answer_cases q with ⟨fault, -, h⟩ | ⟨v, hnew, -, -, -, -, h⟩
    · rw [h]
      exact ih r
    · have hrest := ih (r.push v hnew)
      rw [length_push] at hrest
      rw [h]
      dsimp only
      rw [granted_cons_ok, List.length_cons, hrest]
      omega

/-- **The answers count by twos**, and under each stands the variable that was asked for. -/
theorem getElem?_declared_of_granted (r : Registry) {qs : List Request} {i : Nat} {q : Request}
    {x : VarId} (h : (granted qs (r.serve qs).2)[i]? = some (q, x)) :
    x = ⟨r.length + 2 * i⟩ ∧ ∃ v : Variable,
      (r.serve qs).1.declared[r.declared.length + i]? = some v ∧
      v.name = q.name ∧ v.role = q.role ∧ v.values = q.values := by
  induction qs generalizing r i with
  | nil => simp [granted] at h
  | cons p qs ih =>
    rw [serve_cons] at h ⊢
    rcases r.answer_cases p with ⟨fault, -, hp⟩ | ⟨v, hnew, hname, hrole, hvalues, -, hp⟩
    · rw [hp] at h ⊢
      exact ih r h
    · rw [hp] at h ⊢
      dsimp only at h ⊢
      rw [granted_cons_ok] at h
      have hlength : (r.push v hnew).declared.length = r.declared.length + 1 := by
        rw [push, List.length_append, List.length_singleton]
      cases i with
      | zero =>
        rw [List.getElem?_cons_zero, Option.some.injEq, Prod.mk.injEq] at h
        obtain ⟨rfl, rfl⟩ := h
        have hlast : (r.push v hnew).declared[r.declared.length]? = some v := by
          rw [push, List.getElem?_concat_length]
        refine ⟨rfl, v, ?_, hname, hrole, hvalues⟩
        obtain ⟨rest, hrest⟩ := declared_prefix_serve (r.push v hnew) qs
        rw [← hrest, Nat.add_zero, List.getElem?_append_left (by omega)]
        exact hlast
      | succ i =>
        rw [List.getElem?_cons_succ] at h
        obtain ⟨hx, w, hw, hrest⟩ := ih (r.push v hnew) h
        rw [hlength] at hw
        refine ⟨?_, w, ?_, hrest⟩
        · rw [hx, length_push]
          congr 1
          omega
        · rw [← hw]
          congr 1
          omega

/-! ## What a registry says -/

/-- What a registry says about a copy. -/
structure Describes (r : Registry) (x : VarId) (name : String) (role : Role)
    (values : List String) : Prop where
  mem_ids : x ∈ r.ids
  name_eq : r.name x = name
  role_eq : (r.declaration? x).map (·.role) = some role
  values_eq : r.values x = values

/-- A variable stands under two numbers, an even one and the next. -/
theorem describes_of_getElem? {k : Nat} {v : Variable} (hv : r.declared[k]? = some v) :
    r.Describes ⟨2 * k⟩ v.name v.role v.values ∧
      r.Describes ⟨2 * k + 1⟩ (v.name ++ "'") v.role v.values := by
  obtain ⟨hlt, -⟩ := List.getElem?_eq_some_iff.mp hv
  have heven : r.declaration? ⟨2 * k⟩ = some v := by
    rw [declaration?, Nat.mul_div_cancel_left k Nat.two_pos, hv]
  have hodd : r.declaration? ⟨2 * k + 1⟩ = some v := by
    rw [declaration?, Nat.mul_add_div Nat.two_pos]
    exact hv
  refine ⟨⟨?_, ?_, ?_, ?_⟩, ⟨?_, ?_, ?_, ?_⟩⟩
  · exact r.mem_ids.mpr (by dsimp only [length]; omega)
  · simp [Registry.name, heven, VarId.isPrimed]
  · rw [heven]
    rfl
  · rw [values, heven]
  · exact r.mem_ids.mpr (by dsimp only [length]; omega)
  · simp [Registry.name, hodd, VarId.isPrimed, Variable.primedName]
  · rw [hodd]
    rfl
  · rw [values, hodd]

theorem values_ne_nil {x : VarId} (hx : x ∈ r.ids) : r.values x ≠ [] := by
  rw [mem_ids, length] at hx
  have hlt : x.index / 2 < r.declared.length := by omega
  rw [values, declaration?, List.getElem?_eq_getElem hlt]
  exact (r.declared[x.index / 2]).values_ne_nil

/-- **Values and their names are interchangeable.** -/
theorem valueIndex?_eq_some_iff_valueName {x : VarId} {value : String} {k : Nat} :
    r.valueIndex? x value = some k ↔ k < r.domainSize x ∧ r.valueName x k = value := by
  rw [valueIndex?_eq_some_iff]
  constructor
  · intro h
    obtain ⟨hk, -⟩ := List.getElem?_eq_some_iff.mp h
    exact ⟨hk, (getElem?_values_eq_some_iff hk).mp h⟩
  · exact fun ⟨hk, h⟩ ↦ (getElem?_values_eq_some_iff hk).mpr h

end Registry

/-! ## Documents -/

namespace Memo

open Registry

/-- The request that a declaration of a document makes, if it does not describe its domain twice. -/
def Declaration.request? (d : Declaration) : Option Request :=
  match d.values, d.size with
  | some values, none => some (.listed d.name d.role values)
  | none, some size => some (.range d.name d.role size)
  | none, none => some (.boolean d.name d.role)
  | some _, some _ => none

theorem symbolic_map_eq_ok {α β : Type} {result : Except Fault (α × β)} {a : α}
    (h : symbolic (result.map (·.1)) = .ok a) : ∃ b, result = .ok (a, b) := by
  cases result with
  | error fault => cases h
  | ok found =>
    obtain rfl : found.1 = a := Except.ok.inj h
    exact ⟨found.2, rfl⟩

theorem Declaration.exists_request_of_declare {d : Declaration} {r s : Registry}
    (h : d.declare r = .ok s) : ∃ q x, d.request? = some q ∧ r.answer q = (s, .ok x) := by
  have hgranted : ∀ q : Request, ∀ x, q.declare r = .ok (s, x) → r.answer q = (s, .ok x) :=
    fun q x hx ↦ by rw [answer, hx]
  obtain ⟨name, role, values, size⟩ := d
  match values, size with
  | some values, none =>
    obtain ⟨x, hx⟩ := symbolic_map_eq_ok h
    exact ⟨_, x, rfl, hgranted (.listed name role values) x hx⟩
  | none, some size =>
    obtain ⟨x, hx⟩ := symbolic_map_eq_ok h
    exact ⟨_, x, rfl, hgranted (.range name role size) x hx⟩
  | none, none =>
    obtain ⟨x, hx⟩ := symbolic_map_eq_ok h
    exact ⟨_, x, rfl, hgranted (.boolean name role) x hx⟩
  | some _, some _ => cases h

/-- Declarations of a document are a run of requests that are all granted. -/
theorem Declaration.exists_requests_of_foldlM {ds : List Declaration} {r s : Registry}
    (h : ds.foldlM (fun r v ↦ v.declare r) r = .ok s) :
    ∃ (qs : List Request) (xs : List VarId),
      ds.mapM request? = some qs ∧ r.serve qs = (s, xs.map .ok) := by
  induction ds generalizing r with
  | nil =>
    obtain rfl : r = s := Except.ok.inj h
    exact ⟨[], [], rfl, rfl⟩
  | cons d ds ih =>
    rw [List.foldlM_cons] at h
    cases hd : d.declare r with
    | error fault =>
      rw [hd] at h
      cases h
    | ok next =>
      rw [hd] at h
      obtain ⟨q, x, hq, hanswer⟩ := exists_request_of_declare hd
      obtain ⟨qs, xs, hqs, hserve⟩ := ih h
      refine ⟨q :: qs, x :: xs, by rw [List.mapM_cons, hq, hqs]; rfl, ?_⟩
      rw [serve_cons, hanswer, hserve]
      rfl

/-- **The registry of a document** is made by one request for each declaration and one for the row
marker behind them, all of which are granted. -/
theorem Document.exists_requests_of_registry {d : Document} {r : Registry}
    (h : d.registry = .ok r) :
    ∃ (qs : List Request) (xs : List VarId),
      d.declarations.mapM Declaration.request? = some qs ∧
      empty.serve (qs ++ [.rowMarker d.effectiveAssumptions.length]) = (r, xs.map .ok) := by
  unfold registry at h
  cases hdeclared : d.declarations.foldlM (fun r v ↦ v.declare r) Registry.empty with
  | error fault =>
    rw [hdeclared] at h
    cases h
  | ok s =>
    rw [hdeclared] at h
    obtain ⟨qs, xs, hqs, hserve⟩ := Declaration.exists_requests_of_foldlM hdeclared
    obtain ⟨x, hx⟩ := symbolic_map_eq_ok h
    have hanswer : s.answer (.rowMarker d.effectiveAssumptions.length) = (r, .ok x) := by
      rw [answer, Request.declare, hx]
    refine ⟨qs, xs ++ [x], hqs, ?_⟩
    rw [serve_append, hserve, List.map_append, serve_cons, hanswer]
    rfl

end Memo

end JusticeViolation

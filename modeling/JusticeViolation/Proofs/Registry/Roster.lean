import JusticeViolation.Proofs.Registry.Requests

/-!
# Two tables in step

A registry searches the names of all copies when it is asked for one. Copies can also be kept apart
from their names: a list of copies, and an index in which every name leads to a number. Each table
is then brought up to date by itself, entry after entry, and nothing in their types holds them
together.

They stay in step all the same. A roster that shows the copies of a registry shows those of the next
one after any request: the index is asked for the new name and for the same name with a prime, and
between them these are in the index exactly if the new name is declared. So an entry never displaces
an earlier one, and the numbers in the index are the positions in the list.
-/

namespace JusticeViolation

/-- All that is kept of a copy. -/
structure Roster.Copy where
  name : String
  role : Role
  primed : Bool
  values : List String

/-- A list of copies, with an index of their names. -/
structure Roster where
  copies : List Roster.Copy
  index : List (String × VarId)

namespace Roster

/-- No copy at all. -/
def empty : Roster := ⟨[], []⟩

/-- Enter a number under a name; a number that was there before is displaced. -/
def enter (name : String) (x : VarId) : List (String × VarId) → List (String × VarId)
  | [] => [(name, x)]
  | p :: ps => if p.1 = name then (name, x) :: ps else p :: enter name x ps

/-- Declare a variable: two copies are added to the list, then two names to the index. -/
def declare (b : Roster) (name : String) (role : Role) (description : Domain.Description) :
    Roster × Except Fault VarId :=
  if validName name = true then
    if (b.index.lookup name).isSome || (b.index.lookup (name ++ "'")).isSome then
      (b, .error (.duplicateVariable name))
    else
      match description.domain name with
      | .error fault => (b, .error fault)
      | .ok d =>
        let x : VarId := ⟨b.copies.length⟩
        let b : Roster := { b with copies := b.copies ++ [⟨name, role, false, d.values⟩] }
        let b : Roster := { b with copies := b.copies ++ [⟨name ++ "'", role, true, d.values⟩] }
        let b : Roster := { b with index := enter name x b.index }
        (⟨b.copies, enter (name ++ "'") x.twin b.index⟩, .ok x)
  else (b, .error (.invalidName name))

/-- The answer to a request, with the roster afterwards. -/
def answer (b : Roster) (q : Registry.Request) : Roster × Except Fault VarId :=
  b.declare q.name q.role q.description

/-- The answers to requests that are made one after another. -/
def serve (b : Roster) : List Registry.Request → Roster × List (Except Fault VarId)
  | [] => (b, [])
  | q :: qs =>
    let (b, found) := b.answer q
    let (last, answers) := b.serve qs
    (last, found :: answers)

theorem enter_of_not_mem {name : String} {x : VarId} {ps : List (String × VarId)}
    (h : name ∉ ps.map (·.1)) : enter name x ps = ps ++ [(name, x)] := by
  induction ps with
  | nil => rfl
  | cons p ps ih =>
    rw [List.map_cons, List.mem_cons, not_or] at h
    rw [enter, if_neg (Ne.symm h.1), ih h.2, List.cons_append]

end Roster

namespace Registry

variable {r : Registry}

/-- The copies of a registry and their names, in two tables. -/
def roster (r : Registry) : Roster where
  copies := r.declared.flatMap fun v ↦
    [⟨v.name, v.role, false, v.values⟩, ⟨v.primedName, v.role, true, v.values⟩]
  index := r.names.zipIdx.map fun (name, k) ↦ (name, ⟨k⟩)

/-! ## Finding names -/

private theorem lookup_zipIdx (names : List String) (start : Nat) (name : String) :
    ((names.zipIdx start).map fun (name, k) ↦ (name, VarId.mk k)).lookup name =
      (names.idxOf? name).map fun k ↦ ⟨start + k⟩ := by
  induction names generalizing start with
  | nil => rfl
  | cons first names ih =>
    rw [List.zipIdx_cons, List.map_cons, List.lookup_cons, List.idxOf?_cons, ih]
    by_cases h : first = name
    · subst h
      simp
    · have hfirst : (name == first) = false := beq_false_of_ne (Ne.symm h)
      have hname : (first == name) = false := beq_false_of_ne h
      simp only [hfirst, hname, Bool.false_eq_true, if_false, Option.map_map]
      congr 1
      funext k
      simp only [Function.comp_apply, VarId.mk.injEq]
      omega

/-- **The index leads to the copy of a name.** -/
theorem lookup_index (r : Registry) (name : String) :
    r.roster.index.lookup name = r.lookup? name := by
  rw [roster, lookup_zipIdx, lookup?]
  simp only [Nat.zero_add]

theorem mem_names {name : String} :
    name ∈ r.names ↔ ∃ v ∈ r.declared, name = v.name ∨ name = v.primedName := by
  simp only [names, List.mem_flatMap, List.mem_cons, List.not_mem_nil, or_false]

theorem isSome_lookup?_iff {name : String} : (r.lookup? name).isSome = true ↔ name ∈ r.names := by
  rw [lookup?, Option.isSome_map, List.isSome_idxOf?]

/-- Of a name that can be declared, the one with a prime is taken if and only if it is itself. -/
theorem append_prime_mem_names_iff {name : String} :
    name ++ "'" ∈ r.names ↔ name ∈ r.declared.map (·.name) := by
  rw [mem_names, List.mem_map]
  constructor
  · rintro ⟨v, hv, h | h⟩
    · exact absurd h.symm (ne_append_prime v.validName_name)
    · exact ⟨v, hv, (append_prime_inj h).symm⟩
  · rintro ⟨v, hv, rfl⟩
    exact ⟨v, hv, Or.inr rfl⟩

theorem mem_names_iff_of_validName {name : String} (h : validName name = true) :
    name ∈ r.names ↔ name ∈ r.declared.map (·.name) := by
  rw [mem_names, List.mem_map]
  constructor
  · rintro ⟨v, hv, hname | hname⟩
    · exact ⟨v, hv, hname.symm⟩
    · exact absurd hname (ne_append_prime h)
  · rintro ⟨v, hv, rfl⟩
    exact ⟨v, hv, Or.inl rfl⟩

theorem taken_iff {name : String} (h : validName name = true) :
    ((r.roster.index.lookup name).isSome || (r.roster.index.lookup (name ++ "'")).isSome) = true ↔
      name ∈ r.declared.map (·.name) := by
  rw [Bool.or_eq_true, lookup_index, lookup_index, isSome_lookup?_iff, isSome_lookup?_iff,
    mem_names_iff_of_validName h, append_prime_mem_names_iff, or_self]

/-! ## One request -/

theorem length_names (r : Registry) : r.names.length = r.length := by
  unfold names length
  induction r.declared with
  | nil => rfl
  | cons v vs ih =>
    simp only [List.flatMap_cons, List.length_append, ih, List.length_cons, List.length_nil]
    omega

theorem length_copies (r : Registry) : r.roster.copies.length = r.length := by
  unfold roster length
  induction r.declared with
  | nil => rfl
  | cons v vs ih =>
    simp only [List.flatMap_cons, List.length_append, ih, List.length_cons, List.length_nil]
    omega

theorem names_roster (r : Registry) : r.roster.index.map (·.1) = r.names := by
  simp [roster, Function.comp_def]

/-- One more variable takes two more places in each table. -/
theorem roster_push (r : Registry) (v : Variable) (hnew : v.name ∉ r.declared.map (·.name)) :
    (r.push v hnew).roster = ⟨r.roster.copies ++ [⟨v.name, v.role, false, v.values⟩] ++
        [⟨v.name ++ "'", v.role, true, v.values⟩],
      r.roster.index ++ [(v.name, ⟨r.length⟩)] ++ [(v.name ++ "'", ⟨r.length + 1⟩)]⟩ := by
  have hnames : (r.push v hnew).names = r.names ++ [v.name, v.name ++ "'"] := by
    simp [names, push, Variable.primedName]
  rw [roster, hnames, List.zipIdx_append, length_names]
  simp [roster, push, Variable.primedName]

theorem twin_length (r : Registry) : VarId.twin ⟨r.length⟩ = ⟨r.length + 1⟩ := by
  have heven : r.length % 2 = 0 := Nat.mul_mod_right 2 _
  simp [VarId.twin, VarId.isPrimed, heven]

/-- **A roster follows the registry** through any request. -/
theorem answer_roster (r : Registry) (q : Request) :
    r.roster.answer q = ((r.answer q).1.roster, (r.answer q).2) := by
  rw [Roster.answer, Roster.declare, answer, q.declare_eq, declareOver]
  by_cases hname : validName q.name = true
  · rw [if_pos hname, dif_pos hname]
    by_cases hold : q.name ∈ r.declared.map (·.name)
    · rw [if_pos ((taken_iff hname).mpr hold), dif_pos hold]
    · rw [if_neg (mt (taken_iff hname).mp hold), dif_neg hold]
      cases q.description.domain q.name with
      | error fault => rfl
      | ok d =>
        have hfresh : q.name ∉ r.roster.index.map (·.1) := by
          rwa [names_roster, mem_names_iff_of_validName hname]
        have hprimed : q.name ++ "'" ∉
            (r.roster.index ++ [(q.name, (⟨r.length⟩ : VarId))]).map (·.1) := by
          rw [List.map_append, names_roster, List.mem_append, append_prime_mem_names_iff, not_or]
          refine ⟨hold, fun h ↦ ?_⟩
          exact ne_append_prime hname (List.mem_singleton.mp h).symm
        dsimp only
        rw [roster_push, length_copies, Roster.enter_of_not_mem hfresh, twin_length,
          Roster.enter_of_not_mem hprimed]
  · rw [if_neg hname, dif_neg hname]

/-- A roster that began as the registry did is in step with it after any requests. -/
theorem serve_roster (r : Registry) (qs : List Request) :
    r.roster.serve qs = ((r.serve qs).1.roster, (r.serve qs).2) := by
  induction qs generalizing r with
  | nil => rfl
  | cons q qs ih =>
    rw [Roster.serve, serve_cons, answer_roster]
    dsimp only
    rw [ih]

/-! ## All requests -/

/-- **A registry stays consistent under any requests.** After any run of them, a list of copies with
an index of their names has given the same answers and is in step with the registry. A further
request that is refused leaves both as they are, and it is granted exactly if its name is well
formed and new and its values are some and distinct. The requests granted were answered by the even
numbers in order; under each stands the current copy of what was asked for, under the next one its
twin. All names are distinct and lead to the copy that has them, no copy is without values, no value
is repeated, and values and their names are interchangeable. -/
theorem serve_consistent (qs : List Request) :
    let r := (empty.serve qs).1
    let answers := (empty.serve qs).2
    Roster.empty.serve qs = (r.roster, answers) ∧
    (∀ q, (∀ fault, q.declare r = .error fault →
        r.answer q = (r, .error fault) ∧ r.roster.answer q = (r.roster, .error fault)) ∧
      ((∃ s, q.declare r = .ok s) ↔ validName q.name = true ∧ r.lookup? q.name = none ∧
        q.values ≠ [] ∧ q.values.Nodup)) ∧
    (r.length = 2 * (granted qs answers).length ∧
      ∀ i q x, (granted qs answers)[i]? = some (q, x) → x = ⟨2 * i⟩ ∧ x.twin = ⟨2 * i + 1⟩ ∧
        r.Describes x q.name q.role q.values ∧
        r.Describes x.twin (q.name ++ "'") q.role q.values) ∧
    (r.names.Nodup ∧ ∀ name, r.roster.index.lookup name = r.lookup? name ∧
      ∀ x, r.lookup? name = some x ↔ x ∈ r.ids ∧ r.name x = name) ∧
    ∀ x ∈ r.ids, r.values x ≠ [] ∧ (r.values x).Nodup ∧
      ∀ value k, r.valueIndex? x value = some k ↔ k < r.domainSize x ∧ r.valueName x k = value := by
  intro r answers
  refine ⟨serve_roster empty qs, fun q ↦ ⟨fun fault hfault ↦ ?_, ?_⟩,
    ⟨?_, fun i q x hx ↦ ?_⟩, ⟨r.nodup_names_copies, fun name ↦
      ⟨r.lookup_index name, fun x ↦ lookup?_eq_some_iff⟩⟩, fun x hx ↦
    ⟨values_ne_nil hx, r.nodup_values x, fun value k ↦ valueIndex?_eq_some_iff_valueName⟩⟩
  · have hanswer : r.answer q = (r, .error fault) := by rw [answer, hfault]
    rw [answer_roster, hanswer]
    exact ⟨rfl, rfl⟩
  · rw [exists_declare_iff]
    refine and_congr_right fun hname ↦ and_congr_left fun _ ↦ ?_
    rw [← mem_names_iff_of_validName hname, ← isSome_lookup?_iff, Bool.not_eq_true,
      Option.isSome_eq_false_iff, Option.isNone_iff_eq_none]
  · exact (length_serve empty qs).trans (Nat.zero_add _)
  · obtain ⟨hindex, v, hv, hname, hrole, hvalues⟩ := getElem?_declared_of_granted empty hx
    obtain rfl : x = ⟨2 * i⟩ := hindex.trans (congrArg VarId.mk (Nat.zero_add _))
    have htwin : VarId.twin ⟨2 * i⟩ = ⟨2 * i + 1⟩ := by simp [VarId.twin, VarId.isPrimed]
    have hdeclared : r.declared[i]? = some v := by rwa [← Nat.zero_add i]
    obtain ⟨hcurrent, hnext⟩ := describes_of_getElem? hdeclared
    rw [hname, hrole, hvalues] at hcurrent hnext
    exact ⟨rfl, htwin, hcurrent, htwin ▸ hnext⟩

/-- Four variables of which the last is a row marker, among requests that are refused: for a name
that is taken, one that ends in a prime, no value and a value that is repeated. The name of the
third variable has primes, too, and it is another than that of a next-state copy. -/
theorem serve_consistent_primes :
    let qs : List Request := [.boolean "x" .env, .boolean "x" .sys, .range "y'" .sys 2,
      .range "y" .sys 3, .listed "z" .sys [], .listed "x'z" .sys ["a", "b"],
      .listed "w" .env ["a", "a"], .rowMarker 2]
    let r := (empty.serve qs).1
    (empty.serve qs).2 = [.ok ⟨0⟩, .error (.duplicateVariable "x"), .error (.invalidName "y'"),
        .ok ⟨2⟩, .error (.emptyDomain "z"), .ok ⟨4⟩, .error (.duplicateValue "w" "a"), .ok ⟨6⟩] ∧
      Roster.empty.serve qs = (r.roster, (empty.serve qs).2) ∧
      (r.Describes ⟨4⟩ "x'z" .sys ["a", "b"] ∧ r.Describes ⟨5⟩ "x'z'" .sys ["a", "b"]) ∧
      r.answer (.boolean "x'z" .env) = (r, .error (.duplicateVariable "x'z")) := by
  intro qs r
  have hanswers : (empty.serve qs).2 = [.ok ⟨0⟩, .error (.duplicateVariable "x"),
      .error (.invalidName "y'"), .ok ⟨2⟩, .error (.emptyDomain "z"), .ok ⟨4⟩,
      .error (.duplicateValue "w" "a"), .ok ⟨6⟩] := by rfl
  obtain ⟨hroster, hrefused, ⟨-, hgranted⟩, -⟩ := serve_consistent qs
  obtain ⟨-, -, hdescribes⟩ := hgranted 2 (.listed "x'z" .sys ["a", "b"]) ⟨4⟩ (by
    rw [hanswers]; rfl)
  exact ⟨hanswers, hroster, hdescribes, ((hrefused (.boolean "x'z" .env)).1 _ (by rfl)).1⟩

end Registry

end JusticeViolation

import JusticeViolation.Formula
import JusticeViolation.Proofs.StateSet.Membership
import JusticeViolation.Proofs.Registry

/-!
# What a formula means

A formula is true or false in a valuation. Its leaves read values by *name*: two variables are the
same if the names of their values are, at whatever positions these stand in their domains. The
connectives are classical.

A formula has a meaning if all its leaves do, and then it is compiled to the set of valuations in
which it is true. If not, the first leaf without a meaning decides the error. Leaves are visited from
left to right and none is passed over, whatever the connective: a disjunction that is already true
is still refused for a later disjunct. `Outcome` says this of any computation that goes through some
leaves, and outcomes are composed as computations are, so that every constructor of a formula takes
one step.
-/

namespace JusticeViolation

variable {sp : Space} {r : Registry}

/-- In the valuation `i` the copy called `name` has the value called `value`. -/
def Space.Reads (sp : Space) (i : Nat) (name value : String) : Prop :=
  ∃ x ∈ sp.registry.ids, sp.registry.name x = name ∧
    sp.registry.valueName x (sp.digit i x) = value

namespace Formula

/-! ## Truth -/

mutual

/-- The formula is true in the valuation `i`. -/
def Holds (sp : Space) (i : Nat) : Formula → Prop
  | .top => True
  | .bottom => False
  | .eq name value => sp.Reads i name value
  | .same name other => ∃ value, sp.Reads i name value ∧ sp.Reads i other value
  | .not body => ¬Holds sp i body
  | .and parts => HoldsAll sp i parts
  | .or parts => HoldsSome sp i parts
  | .implies premise conclusion => Holds sp i premise → Holds sp i conclusion
  | .iff left right => Holds sp i left ↔ Holds sp i right

/-- All of several formulas are true. -/
def HoldsAll (sp : Space) (i : Nat) : List Formula → Prop
  | [] => True
  | f :: fs => Holds sp i f ∧ HoldsAll sp i fs

/-- One of several formulas is true. -/
def HoldsSome (sp : Space) (i : Nat) : List Formula → Prop
  | [] => False
  | f :: fs => Holds sp i f ∨ HoldsSome sp i fs

end

/-! ## Leaves -/

/-- What a formula is made of. -/
inductive Leaf
  | eq (name value : String)
  | same (name other : String)

mutual

/-- The leaves of a formula, from left to right. -/
def leaves : Formula → List Leaf
  | .top | .bottom => []
  | .eq name value => [.eq name value]
  | .same name other => [.same name other]
  | .not body => leaves body
  | .and parts | .or parts => leavesAll parts
  | .implies premise conclusion => leaves premise ++ leaves conclusion
  | .iff left right => leaves left ++ leaves right

/-- The leaves of several formulas. -/
def leavesAll : List Formula → List Leaf
  | [] => []
  | f :: fs => leaves f ++ leavesAll fs

end

namespace Leaf

/-- A leaf with a meaning: it names a copy and one of its values, or two copies that have the name
of a value in common. -/
def Sound (r : Registry) : Leaf → Prop
  | eq name value => ∃ x ∈ r.ids, r.name x = name ∧ value ∈ r.values x
  | same name other => ∃ x ∈ r.ids, ∃ y ∈ r.ids, r.name x = name ∧ r.name y = other ∧
      ∃ value ∈ r.values x, value ∈ r.values y

/-- A leaf without a meaning, and why. -/
inductive FailsWith (r : Registry) : Leaf → Fault → Prop
  | variableOfEq {name value : String} (hname : ∀ x ∈ r.ids, r.name x ≠ name) :
    FailsWith r (.eq name value) (.unknownVariable name)
  | valueOfEq {name value : String} {x : VarId} (hx : x ∈ r.ids) (hname : r.name x = name)
    (hvalue : value ∉ r.values x) : FailsWith r (.eq name value) (.unknownValue name value)
  | leftOfSame {name other : String} (hname : ∀ x ∈ r.ids, r.name x ≠ name) :
    FailsWith r (.same name other) (.unknownVariable name)
  | rightOfSame {name other : String} {x : VarId} (hx : x ∈ r.ids) (hname : r.name x = name)
    (hother : ∀ y ∈ r.ids, r.name y ≠ other) :
    FailsWith r (.same name other) (.unknownVariable other)
  | valuesOfSame {name other : String} {x y : VarId} (hx : x ∈ r.ids) (hname : r.name x = name)
    (hy : y ∈ r.ids) (hother : r.name y = other)
    (hvalues : ∀ value ∈ r.values x, value ∉ r.values y) :
    FailsWith r (.same name other) (.disjointDomains name other)

variable {leaf : Leaf} {fault : Fault}

theorem FailsWith.not_sound (h : leaf.FailsWith r fault) : ¬leaf.Sound r := by
  cases h with
  | variableOfEq hname =>
    rintro ⟨x, hx, hxname, -⟩
    exact hname x hx hxname
  | valueOfEq hx hname hvalue =>
    rintro ⟨y, hy, hyname, hmem⟩
    exact hvalue (Registry.eq_of_name_eq hy hx (hyname.trans hname.symm) ▸ hmem)
  | leftOfSame hname =>
    rintro ⟨x, hx, -, -, hxname, -⟩
    exact hname x hx hxname
  | rightOfSame hx hname hother =>
    rintro ⟨-, -, y, hy, -, hyname, -⟩
    exact hother y hy hyname
  | valuesOfSame hx hname hy hother hvalues =>
    rintro ⟨x', hx', y', hy', hxname, hyname, value, hmem, hmem'⟩
    rw [Registry.eq_of_name_eq hx' hx (hxname.trans hname.symm)] at hmem
    rw [Registry.eq_of_name_eq hy' hy (hyname.trans hother.symm)] at hmem'
    exact hvalues value hmem hmem'

/-- A leaf fails in one way. -/
theorem FailsWith.unique {other : Fault} (h : leaf.FailsWith r fault) (h' : leaf.FailsWith r other) :
    fault = other := by
  cases h with
  | variableOfEq hname =>
    cases h' with
    | variableOfEq => rfl
    | valueOfEq hx hx' => exact absurd hx' (hname _ hx)
  | valueOfEq hx hx' =>
    cases h' with
    | variableOfEq hname => exact absurd hx' (hname _ hx)
    | valueOfEq => rfl
  | leftOfSame hname =>
    cases h' with
    | leftOfSame => rfl
    | rightOfSame hx hx' | valuesOfSame hx hx' => exact absurd hx' (hname _ hx)
  | rightOfSame hx hx' hother =>
    cases h' with
    | leftOfSame hname => exact absurd hx' (hname _ hx)
    | rightOfSame => rfl
    | valuesOfSame _ _ hy hy' => exact absurd hy' (hother _ hy)
  | valuesOfSame hx hx' hy hy' =>
    cases h' with
    | leftOfSame hname => exact absurd hx' (hname _ hx)
    | rightOfSame _ _ hother => exact absurd hy' (hother _ hy)
    | valuesOfSame => rfl

end Leaf

/-! ## Outcomes -/

/-- The first of some leaves without a meaning fails with a fault. -/
def FirstFailure (r : Registry) (leaves : List Leaf) (fault : Fault) : Prop :=
  ∃ before leaf after, leaves = before ++ leaf :: after ∧ (∀ l ∈ before, l.Sound r) ∧
    leaf.FailsWith r fault

theorem FirstFailure.not_sound {leaves : List Leaf} {fault : Fault}
    (h : FirstFailure r leaves fault) : ¬∀ l ∈ leaves, l.Sound r := by
  obtain ⟨before, leaf, after, rfl, -, hfails⟩ := h
  exact fun hsound ↦
    hfails.not_sound (hsound leaf (List.mem_append_right _ List.mem_cons_self))

/-- There is one first failure. -/
theorem FirstFailure.unique {leaves : List Leaf} {fault other : Fault}
    (h : FirstFailure r leaves fault) (h' : FirstFailure r leaves other) : fault = other := by
  obtain ⟨before, leaf, after, rfl, hbefore, hfails⟩ := h
  obtain ⟨before', leaf', after', heq, hbefore', hfails'⟩ := h'
  -- Neither leaf stands before the other, where all leaves have a meaning.
  induction before generalizing before' with
  | nil =>
    cases before' with
    | nil => exact hfails.unique ((List.cons.inj heq).1 ▸ hfails')
    | cons l ls =>
      obtain ⟨rfl, -⟩ := List.cons.inj heq
      exact absurd (hbefore' leaf List.mem_cons_self) hfails.not_sound
  | cons l ls ih =>
    cases before' with
    | nil =>
      obtain ⟨rfl, -⟩ := List.cons.inj heq
      exact absurd (hbefore l List.mem_cons_self) hfails'.not_sound
    | cons l' ls' =>
      exact ih (fun k hk ↦ hbefore k (List.mem_cons_of_mem _ hk)) ls' (List.cons.inj heq).2
        fun k hk ↦ hbefore' k (List.mem_cons_of_mem _ hk)

/-- What comes of going through some leaves: a result with a property if all have a meaning, the
fault of the first that has none otherwise. -/
inductive Outcome (r : Registry) (leaves : List Leaf) {α : Type} (P : α → Prop) :
    Except Fault α → Prop
  | ok {a : α} (hsound : ∀ l ∈ leaves, l.Sound r) (ha : P a) : Outcome r leaves P (.ok a)
  | error {fault : Fault} (h : FirstFailure r leaves fault) : Outcome r leaves P (.error fault)

namespace Outcome

variable {α β : Type} {P : α → Prop} {Q : β → Prop} {before after : List Leaf}

/-- A result is reached if and only if all leaves have a meaning. -/
theorem exists_ok_iff {e : Except Fault α} (h : Outcome r before P e) :
    (∃ a, e = .ok a) ↔ ∀ l ∈ before, l.Sound r := by
  cases h with
  | ok hsound => exact iff_of_true ⟨_, rfl⟩ hsound
  | error h => exact iff_of_false (fun ⟨_, ha⟩ ↦ nomatch ha) h.not_sound

/-- The fault is that of the first failure. -/
theorem eq_error_iff {e : Except Fault α} (h : Outcome r before P e) {fault : Fault} :
    e = .error fault ↔ FirstFailure r before fault := by
  cases h with
  | ok hsound => exact iff_of_false (fun hfault ↦ nomatch hfault) fun hfirst ↦ hfirst.not_sound hsound
  | error h =>
    rw [Except.error.injEq]
    exact ⟨fun heq ↦ heq ▸ h, h.unique⟩

/-- **One computation after the other** goes through the leaves of both in turn. -/
theorem bind {e : Except Fault α} {next : α → Except Fault β} (h : Outcome r before P e)
    (hnext : ∀ a, P a → Outcome r after Q (next a)) : Outcome r (before ++ after) Q (e >>= next) := by
  cases h with
  | error h =>
    obtain ⟨front, leaf, rest, rfl, hfront, hfails⟩ := h
    exact .error ⟨front, leaf, rest ++ after, by simp, hfront, hfails⟩
  | @ok a hsound ha =>
    change Outcome r (before ++ after) Q (next a)
    have hafter := hnext a ha
    generalize next a = e at hafter
    cases hafter with
    | ok hsound' hb => exact .ok (List.forall_mem_append.mpr ⟨hsound, hsound'⟩) hb
    | error h =>
      obtain ⟨front, leaf, rest, rfl, hfront, hfails⟩ := h
      exact .error ⟨before ++ front, leaf, rest, by simp,
        List.forall_mem_append.mpr ⟨hsound, hfront⟩, hfails⟩

/-- What is computed from a result goes through no more leaves. -/
theorem map {e : Except Fault α} (h : Outcome r before P e) {f : α → β}
    (hf : ∀ a, P a → Q (f a)) : Outcome r before Q (e >>= fun a ↦ pure (f a)) := by
  have hbind : Outcome r (before ++ []) Q (e >>= fun a ↦ pure (f a)) :=
    h.bind fun a ha ↦ .ok (fun l hl ↦ absurd hl List.not_mem_nil) (hf a ha)
  rwa [List.append_nil] at hbind

end Outcome

/-! ## Compiling leaves -/

theorem reads_iff {i : Nat} {x : VarId} (hx : x ∈ sp.registry.ids) {value : String} :
    sp.Reads i (sp.registry.name x) value ↔
      (sp.registry.values x)[sp.digit i x]? = some value := by
  have hlt : sp.digit i x < (sp.registry.values x).length :=
    (Space.length_values hx).symm ▸ sp.digit_lt i x
  rw [Registry.getElem?_values_eq_some_iff hlt]
  constructor
  · rintro ⟨y, hy, hname, hvalue⟩
    rwa [Registry.eq_of_name_eq hy hx hname] at hvalue
  · exact fun h ↦ ⟨x, hx, rfl, h⟩

/-- The valuations with a value, by its name. -/
theorem mem_literal_iff_reads {i k : Nat} {x : VarId} (hx : x ∈ sp.registry.ids) {value : String}
    (hk : (sp.registry.values x)[k]? = some value) :
    i ∈ (StateSet.literal x k : StateSet sp) ↔
      i < sp.size ∧ sp.Reads i (sp.registry.name x) value := by
  rw [StateSet.mem_literal hx, reads_iff hx, ← hk]
  refine and_congr_right fun _ ↦ ?_
  obtain ⟨hlt, -⟩ := List.getElem?_eq_some_iff.mp hk
  rw [eq_comm (a := (sp.registry.values x)[_]?), List.getElem?_inj hlt (sp.registry.nodup_values x),
    eq_comm]

/-- A set holds the valuations with a property. -/
def Means (s : StateSet sp) (P : Nat → Prop) : Prop := ∀ i, i ∈ s ↔ i < sp.size ∧ P i

theorem outcome_compileEq (sp : Space) (name value : String) :
    Outcome sp.registry [.eq name value] (Means · fun i ↦ sp.Reads i name value)
      (compileEq sp name value) := by
  unfold compileEq
  by_cases hname : ∃ x ∈ sp.registry.ids, sp.registry.name x = name
  · obtain ⟨x, hx, rfl⟩ := hname
    rw [Registry.require_eq_ok hx]
    simp only [Except.bind, bind]
    cases hk : sp.registry.valueIndex? x value with
    | none =>
      refine .error ⟨[], _, [], rfl, fun l hl ↦ absurd hl List.not_mem_nil, .valueOfEq hx rfl ?_⟩
      exact Registry.valueIndex?_eq_none_iff.mp hk
    | some k =>
      rw [Registry.valueIndex?_eq_some_iff] at hk
      refine .ok (List.forall_mem_singleton.mpr ⟨x, hx, rfl, List.mem_of_getElem? hk⟩) fun i ↦ ?_
      exact mem_literal_iff_reads hx hk
  · push Not at hname
    rw [Registry.require_eq_error hname]
    exact .error ⟨[], _, [], rfl, fun l hl ↦ absurd hl List.not_mem_nil, .variableOfEq hname⟩

theorem mem_sharedValues {x y : VarId} {k l : Nat} :
    (k, l) ∈ sharedValues sp x y ↔ ∃ value, (sp.registry.values x)[k]? = some value ∧
      (sp.registry.values y)[l]? = some value := by
  simp only [sharedValues, List.mem_filterMap, Prod.exists, List.mem_zipIdx_iff_getElem?,
    Option.map_eq_some_iff, Registry.valueIndex?_eq_some_iff, Prod.mk.injEq]
  constructor
  · rintro ⟨value, k', hk, l', hl, rfl, rfl⟩
    exact ⟨value, hk, hl⟩
  · rintro ⟨value, hk, hl⟩
    exact ⟨value, k, hk, l, hl, rfl, rfl⟩

/-- The valuations in which two copies have values of one name. -/
theorem means_shared {x y : VarId} (hx : x ∈ sp.registry.ids) (hy : y ∈ sp.registry.ids) :
    Means (.unionAll ((sharedValues sp x y).map fun (k, l) ↦ .literal x k ∩ .literal y l) :
        StateSet sp)
      fun i ↦ ∃ value, sp.Reads i (sp.registry.name x) value ∧
        sp.Reads i (sp.registry.name y) value := fun i ↦ by
  simp only [StateSet.mem_unionAll, List.mem_map, Prod.exists, mem_sharedValues]
  constructor
  · rintro ⟨_, ⟨k, l, ⟨value, hk, hl⟩, rfl⟩, hi⟩
    obtain ⟨hi, hi'⟩ := StateSet.mem_inter.mp hi
    obtain ⟨hlt, hread⟩ := (mem_literal_iff_reads hx hk).mp hi
    exact ⟨hlt, value, hread, ((mem_literal_iff_reads hy hl).mp hi').2⟩
  · rintro ⟨hlt, value, hread, hread'⟩
    have hk := (reads_iff hx).mp hread
    have hl := (reads_iff hy).mp hread'
    refine ⟨_, ⟨_, _, ⟨value, hk, hl⟩, rfl⟩, StateSet.mem_inter.mpr ⟨?_, ?_⟩⟩
    · exact (mem_literal_iff_reads hx hk).mpr ⟨hlt, hread⟩
    · exact (mem_literal_iff_reads hy hl).mpr ⟨hlt, hread'⟩

theorem outcome_compileSame (sp : Space) (name other : String) :
    Outcome sp.registry [.same name other]
      (Means · fun i ↦ ∃ value, sp.Reads i name value ∧ sp.Reads i other value)
      (compileSame sp name other) := by
  have hnil : ∀ l ∈ ([] : List Leaf), l.Sound sp.registry := fun l hl ↦ absurd hl List.not_mem_nil
  unfold compileSame
  by_cases hname : ∃ x ∈ sp.registry.ids, sp.registry.name x = name
  · obtain ⟨x, hx, rfl⟩ := hname
    rw [Registry.require_eq_ok hx]
    by_cases hother : ∃ y ∈ sp.registry.ids, sp.registry.name y = other
    · obtain ⟨y, hy, rfl⟩ := hother
      rw [Registry.require_eq_ok hy]
      simp only [Except.bind, bind]
      have hmeans := means_shared hx hy
      have hmem := @mem_sharedValues sp x y
      generalize sharedValues sp x y = pairs at hmeans hmem
      cases pairs with
      | nil =>
        refine .error ⟨[], _, [], rfl, hnil, .valuesOfSame hx rfl hy rfl fun value hvx hvy ↦ ?_⟩
        obtain ⟨k, hk⟩ := List.mem_iff_getElem?.mp hvx
        obtain ⟨l, hl⟩ := List.mem_iff_getElem?.mp hvy
        exact absurd (hmem.mpr ⟨value, hk, hl⟩) List.not_mem_nil
      | cons pair pairs =>
        obtain ⟨value, hk, hl⟩ := hmem.mp (List.mem_cons_self (a := pair) (l := pairs))
        refine .ok (List.forall_mem_singleton.mpr ⟨x, hx, y, hy, rfl, rfl, value, ?_, ?_⟩) hmeans
        · exact List.mem_of_getElem? hk
        · exact List.mem_of_getElem? hl
    · push Not at hother
      rw [Registry.require_eq_error hother]
      exact .error ⟨[], _, [], rfl, hnil, .rightOfSame hx rfl hother⟩
  · push Not at hname
    rw [Registry.require_eq_error hname]
    exact .error ⟨[], _, [], rfl, hnil, .leftOfSame hname⟩

/-! ## Compiling formulas -/

section Means

variable {s t : StateSet sp} {P Q : Nat → Prop}

theorem Means.compl (hs : Means s P) : Means s.compl fun i ↦ ¬P i := fun i ↦ by
  rw [StateSet.mem_compl, hs]
  exact and_congr_right fun hi ↦ not_congr (and_iff_right hi)

theorem Means.implies (hs : Means s P) (ht : Means t Q) : Means (s.implies t) fun i ↦ P i → Q i :=
  fun i ↦ by
    rw [StateSet.mem_implies, hs, ht]
    exact and_congr_right fun hi ↦ imp_congr (and_iff_right hi) (and_iff_right hi)

theorem Means.iff (hs : Means s P) (ht : Means t Q) :
    Means (s.implies t ∩ t.implies s) fun i ↦ P i ↔ Q i := fun i ↦ by
  rw [StateSet.mem_inter, hs.implies ht, ht.implies hs, ← and_and_left]
  exact and_congr_right fun _ ↦ iff_iff_implies_and_implies.symm

end Means

/-- Several sets hold what several formulas say. -/
def MeanAll (fs : List Formula) (ss : List (StateSet sp)) : Prop :=
  List.Forall₂ (fun f s ↦ Means s fun i ↦ f.Holds sp i) fs ss

theorem MeanAll.interAll {fs : List Formula} {ss : List (StateSet sp)} (h : MeanAll fs ss) :
    Means (.interAll ss) fun i ↦ HoldsAll sp i fs := fun i ↦ by
  rw [StateSet.mem_interAll]
  refine and_congr_right fun hi ↦ ?_
  beta_reduce
  induction h with
  | nil => simp [HoldsAll]
  | cons hs _ ih => rw [List.forall_mem_cons, hs, and_iff_right hi, ih, HoldsAll]

theorem MeanAll.unionAll {fs : List Formula} {ss : List (StateSet sp)} (h : MeanAll fs ss) :
    Means (.unionAll ss) fun i ↦ HoldsSome sp i fs := fun i ↦ by
  rw [StateSet.mem_unionAll]
  beta_reduce
  induction h with
  | nil => simp [HoldsSome]
  | cons hs _ ih => rw [List.exists_mem_cons_iff, hs, ih, HoldsSome, ← and_or_left]

mutual

/-- **The outcome of compiling a formula**: the set of the valuations in which it is true, or the
fault of its first leaf without a meaning. -/
theorem outcome_compile (sp : Space) : ∀ f : Formula,
    Outcome sp.registry f.leaves (Means · fun i ↦ f.Holds sp i) (f.compile sp)
  | .top => .ok (fun l hl ↦ absurd hl List.not_mem_nil) fun i ↦ by simp [Holds]
  | .bottom => .ok (fun l hl ↦ absurd hl List.not_mem_nil) fun i ↦ by simp [Holds]
  | .eq name value => outcome_compileEq sp name value
  | .same name other => outcome_compileSame sp name other
  | .not body => (outcome_compile sp body).map fun _ hs ↦ hs.compl
  | .and parts => (outcome_compileAll sp parts).map fun _ hss ↦ hss.interAll
  | .or parts => (outcome_compileAll sp parts).map fun _ hss ↦ hss.unionAll
  | .implies premise conclusion => (outcome_compile sp premise).bind fun _ hs ↦
      (outcome_compile sp conclusion).map fun _ ht ↦ hs.implies ht
  | .iff left right => (outcome_compile sp left).bind fun _ hs ↦
      (outcome_compile sp right).map fun _ ht ↦ hs.iff ht

theorem outcome_compileAll (sp : Space) : ∀ fs : List Formula,
    Outcome sp.registry (leavesAll fs) (MeanAll fs) (compileAll sp fs)
  | [] => .ok (fun _ hl ↦ absurd hl List.not_mem_nil) .nil
  | f :: fs => (outcome_compile sp f).bind fun _ hs ↦
      (outcome_compileAll sp fs).map fun _ hss ↦ .cons hs hss

end

/-- **A formula is compiled to its meaning.** It is compiled if and only if every leaf has a meaning,
and then to the set of the valuations in which it is true. Otherwise the error is that of the first
leaf from the left that has none. -/
theorem compile_meaning (sp : Space) (f : Formula) :
    ((∃ s, f.compile sp = .ok s) ↔ ∀ leaf ∈ f.leaves, leaf.Sound sp.registry) ∧
    (∀ s, f.compile sp = .ok s → ∀ i, i ∈ s ↔ i < sp.size ∧ f.Holds sp i) ∧
    ∀ fault, f.compile sp = .error fault ↔ FirstFailure sp.registry f.leaves fault := by
  have houtcome := outcome_compile sp f
  refine ⟨houtcome.exists_ok_iff, fun s hs ↦ ?_, fun fault ↦ houtcome.eq_error_iff⟩
  rw [hs] at houtcome
  cases houtcome with
  | ok _ hmeans => exact hmeans

end Formula

/-! ## Values at different positions -/

/-- Two variables with two value names in common, at different positions. -/
def shiftedVariables : List Variable :=
  [⟨⟨["a", "b", "c"], by decide, by decide⟩, "x", .env, by decide⟩,
    ⟨⟨["b", "c", "d"], by decide, by decide⟩, "y", .sys, by decide⟩]

theorem nodup_shiftedVariables : (shiftedVariables.map (·.name)).Nodup := by decide

/-- Their valuations. -/
def shifted : Space where
  registry := ⟨shiftedVariables, nodup_shiftedVariables⟩
  sizes := [3, 3, 3, 3]
  size := 81
  sizes_eq := rfl
  size_eq := rfl
  size_le := by decide

namespace Formula

/-- Both variables are `b` in a valuation with the digits `1` and `0`, and they are not the same in
one with the digits `1` and `1`. A disjunction that is true whatever `y` is fails for its second
part. -/
theorem compile_meaning_shifted :
    (∃ s, (same "x" "y").compile shifted = .ok s ∧ 1 ∈ s ∧ 10 ∉ s ∧
      shifted.digits 1 [⟨0⟩, ⟨2⟩] = [1, 0] ∧ shifted.digits 10 [⟨0⟩, ⟨2⟩] = [1, 1]) ∧
    (or [top, eq "y" "a", same "z" "x"]).compile shifted = .error (.unknownValue "y" "a") := by
  obtain ⟨hok, hmeans, -⟩ := compile_meaning shifted (same "x" "y")
  obtain ⟨-, -, herror⟩ := compile_meaning shifted (or [top, eq "y" "a", same "z" "x"])
  have hx : (⟨0⟩ : VarId) ∈ shifted.registry.ids := by decide
  have hy : (⟨2⟩ : VarId) ∈ shifted.registry.ids := by decide
  constructor
  · obtain ⟨s, hs⟩ := hok.mpr (List.forall_mem_singleton.mpr
      ⟨⟨0⟩, hx, ⟨2⟩, hy, rfl, rfl, "b", by decide, by decide⟩)
    refine ⟨s, hs, ?_, fun hmem ↦ ?_, by decide, by decide⟩
    · exact (hmeans s hs 1).mpr ⟨by decide, "b", (reads_iff hx).mpr rfl, (reads_iff hy).mpr rfl⟩
    · obtain ⟨-, value, hreadx, hready⟩ := (hmeans s hs 10).mp hmem
      have hb : some "b" = some value := (reads_iff hx).mp hreadx
      have hc : some "c" = some value := (reads_iff hy).mp hready
      exact absurd (hb.trans hc.symm) (by decide)
  · exact (herror _).mpr ⟨[], .eq "y" "a", [.same "z" "x"], rfl,
      fun l hl ↦ absurd hl List.not_mem_nil, .valueOfEq hy rfl (by decide)⟩

end Formula

end JusticeViolation

import Mathlib.Data.List.Lex
import JusticeViolation.Proofs.Game.Commitment

/-!
# The least choice of every state

`determinize` treats the next values of the environment one after the other, and every pass starts
from what the passes before it have left. Minimising the first value, then among the choices left
the second, and so on, is minimising the whole tuple in lexicographic order: that is the
characterisation proved here, for any relation, and everything else `determinize` promises follows
from it. Two choices of a state are told apart by the tuple of their next values of the environment
alone, so all answers of the system to the least choice stay.
-/

namespace JusticeViolation.Game

variable {sp : Space} {g : Game sp}

/-- `v` has the least tuple of values of `xs` among the choices of its state. -/
def IsLeastChoice (xs : List VarId) (choices : StateSet sp) (v : Nat) : Prop :=
  v ∈ choices ∧ ∀ w ∈ choices, sp.now w = sp.now v → sp.digits v xs ≤ sp.digits w xs

/-- Two choices with least tuples have the same tuple. -/
theorem IsLeastChoice.digits_eq {xs : List VarId} {choices : StateSet sp} {v w : Nat}
    (hv : IsLeastChoice xs choices v) (hw : IsLeastChoice xs choices w)
    (hvw : sp.now v = sp.now w) : sp.digits v xs = sp.digits w xs :=
  le_antisymm (hv.2 w hw.1 hvw.symm) (hw.2 v hv.1 hvw)

/-- The next values of the environment stand in the order of the registry. -/
theorem pairwise_envNextIds (g : Game sp) :
    g.envNextIds.Pairwise fun x y ↦ x.index < y.index :=
  List.Pairwise.filter _ (List.pairwise_map.mpr List.pairwise_lt_range)

/-- Tuples are compared at the first place where they differ. -/
private theorem digits_cons_le_iff {x : VarId} {xs : List VarId} {v w : Nat} :
    sp.digits v (x :: xs) ≤ sp.digits w (x :: xs) ↔ sp.digit v x < sp.digit w x ∨
      sp.digit v x = sp.digit w x ∧ sp.digits v xs ≤ sp.digits w xs := by
  rw [← not_lt, ← not_lt, Space.digits, Space.digits, List.map_cons, List.map_cons,
    List.cons_lt_cons_iff, ← Space.digits, ← Space.digits]
  rcases Nat.lt_trichotomy (sp.digit v x) (sp.digit w x) with hlt | heq | hgt
  · simp [hlt, hlt.not_gt, hlt.ne']
  · simp [heq]
  · simp [hgt, hgt.not_gt, hgt.ne']

theorem sameMove_iff_digits_eq {v w : Nat} :
    g.SameMove v w ↔ sp.digits v g.envNextIds = sp.digits w g.envNextIds :=
  List.map_inj_left.symm

/-- One pass: the least value of `x`, then the least tuple of `xs` among the choices that have
it. -/
private theorem isLeastChoice_cons {x : VarId} (hx : x ∈ sp.registry.ids) {xs : List VarId}
    {choices : StateSet sp} {v : Nat} :
    IsLeastChoice xs (g.keepLeast x choices) v ↔ IsLeastChoice (x :: xs) choices v := by
  constructor
  · rintro ⟨hv, hmin⟩
    have hleast := (mem_keepLeast hx).mp hv
    refine ⟨hleast.1, fun w hw hwv ↦ digits_cons_le_iff.mpr ?_⟩
    rcases Nat.lt_or_eq_of_le (hleast.2 w hw hwv) with hlt | heq
    · exact Or.inl hlt
    · -- a choice that ties on `x` is kept as well, and the rest of the tuple decides
      have hkept : w ∈ g.keepLeast x choices := (mem_keepLeast hx).mpr
        ⟨hw, fun u hu huw ↦ heq ▸ hleast.2 u hu (huw.trans hwv)⟩
      exact Or.inr ⟨heq, hmin w hkept hwv⟩
  · rintro ⟨hv, hmin⟩
    have hkept : v ∈ g.keepLeast x choices := by
      refine (mem_keepLeast hx).mpr ⟨hv, fun w hw hwv ↦ ?_⟩
      rcases digits_cons_le_iff.mp (hmin w hw hwv) with hlt | ⟨heq, -⟩
      · exact Nat.le_of_lt hlt
      · exact Nat.le_of_eq heq
    refine ⟨hkept, fun w hw hwv ↦ ?_⟩
    obtain ⟨hwc, hwmin⟩ := (mem_keepLeast hx).mp hw
    rcases digits_cons_le_iff.mp (hmin w hwc hwv) with hlt | ⟨-, hle⟩
    · exact absurd (hwmin v hv hwv.symm) (Nat.not_le.mpr hlt)
    · exact hle

private theorem mem_foldl_keepLeast {xs : List VarId} (hxs : ∀ x ∈ xs, x ∈ sp.registry.ids)
    (choices : StateSet sp) (v : Nat) :
    v ∈ xs.foldl (fun choices x ↦ g.keepLeast x choices) choices ↔
      IsLeastChoice xs choices v := by
  induction xs generalizing choices with
  | nil => exact (and_iff_left fun w _ _ ↦ le_refl []).symm
  | cons x xs ih =>
    rw [List.foldl_cons, ih fun y hy ↦ hxs y (List.mem_cons_of_mem x hy),
      isLeastChoice_cons (hxs x List.mem_cons_self)]

theorem mem_determinize_iff_isLeastChoice {choices : StateSet sp} {v : Nat} :
    v ∈ g.determinize choices ↔ IsLeastChoice g.envNextIds choices v :=
  mem_foldl_keepLeast (fun _ hx ↦ (envNextIds_mem hx).1) choices v

/-- A relation with one choice for every state is left alone. -/
theorem Functional.determinize_eq {choices : StateSet sp} (h : g.Functional choices) :
    g.determinize choices = choices := by
  refine StateSet.ext_mem fun v ↦ ⟨determinize_subset, fun hv ↦ ?_⟩
  refine mem_determinize_iff_isLeastChoice.mpr ⟨hv, fun w hw hwv ↦ ?_⟩
  rw [sameMove_iff_digits_eq.mp (h w hw v hv hwv)]

/-- **Determinizing keeps the lexicographically least choice of every state.** For any relation, a
valuation stays exactly if it is in the relation and its tuple of next values of the environment, in
the order of the registry, is least among the members with the same current values. So the result
is a part of the relation with the same domain and a single tuple for each state, and determinizing
it again changes nothing. -/
theorem determinize_lexicographically_least (g : Game sp) (choices : StateSet sp) :
    (g.envNextIds.Pairwise fun x y ↦ x.index < y.index) ∧
      (∀ v, v ∈ g.determinize choices ↔ v ∈ choices ∧
        ∀ w ∈ choices, sp.now w = sp.now v →
          sp.digits v g.envNextIds ≤ sp.digits w g.envNextIds) ∧
      (∀ v ∈ g.determinize choices, v ∈ choices) ∧
      g.domain (g.determinize choices) = g.domain choices ∧
      (∀ v ∈ g.determinize choices, ∀ w ∈ g.determinize choices, sp.now v = sp.now w →
        sp.digits v g.envNextIds = sp.digits w g.envNextIds) ∧
      g.determinize (g.determinize choices) = g.determinize choices := by
  refine ⟨g.pairwise_envNextIds, fun v ↦ mem_determinize_iff_isLeastChoice,
    fun v hv ↦ determinize_subset hv, domain_determinize choices, fun v hv w hw hvw ↦ ?_,
    (functional_determinize choices).determinize_eq⟩
  exact (mem_determinize_iff_isLeastChoice.mp hv).digits_eq
    (mem_determinize_iff_isLeastChoice.mp hw) hvw

end JusticeViolation.Game

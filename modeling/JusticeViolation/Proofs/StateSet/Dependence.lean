import JusticeViolation.Proofs.StateSet.Membership

/-!
# What membership depends on

A set depends on some copies only if valuations that agree on these are both members or both not.
States are valuations read through their current copies: `now i` is what `i` says about the present,
`next i` what it says about the state after a step, both as valuations in which every next-state
copy is 0. A set that depends on current copies only does not tell `i` from `now i`, and its primed
form holds the steps that lead into it.

With a row marker among the current copies, `bare m i` is the state without its tag.
-/

namespace JusticeViolation

namespace Space

variable {sp : Space}

/-! ## Present and next state -/

/-- What a valuation says about the current copies. -/
def now (sp : Space) (i : Nat) : Nat :=
  sp.encode fun x ↦ if x.isPrimed then 0 else sp.digit i x

/-- What a valuation says about the state after a step. -/
def next (sp : Space) (i : Nat) : Nat := sp.now (sp.swap i)

/-- What a valuation says about the current copies other than `m`. -/
def bare (sp : Space) (m : VarId) (i : Nat) : Nat :=
  sp.encode fun x ↦ if x.isPrimed ∨ x = m then 0 else sp.digit i x

private theorem ite_digit_lt (p : VarId → Prop) [DecidablePred p] (i : Nat) (x : VarId) :
    (if p x then 0 else sp.digit i x) < sp.domainSize x := by
  split
  · exact sp.domainSize_pos x
  · exact sp.digit_lt i x

theorem now_lt (sp : Space) (i : Nat) : sp.now i < sp.size :=
  encode_lt (ite_digit_lt (fun x ↦ x.isPrimed = true) i)

theorem next_lt (sp : Space) (i : Nat) : sp.next i < sp.size := sp.now_lt _

theorem bare_lt (sp : Space) (m : VarId) (i : Nat) : sp.bare m i < sp.size :=
  encode_lt (ite_digit_lt (fun x ↦ x.isPrimed = true ∨ x = m) i)

theorem digit_now (sp : Space) (i : Nat) (x : VarId) :
    sp.digit (sp.now i) x = if x.isPrimed then 0 else sp.digit i x :=
  digit_encode (ite_digit_lt (fun x ↦ x.isPrimed = true) i) x

theorem digit_now_of_current {x : VarId} (hx : x.isPrimed = false) (i : Nat) :
    sp.digit (sp.now i) x = sp.digit i x := by
  rw [digit_now, hx, if_neg Bool.false_ne_true]

theorem digit_next_of_current {x : VarId} (hx : x.isPrimed = false) (i : Nat) :
    sp.digit (sp.next i) x = sp.digit i x.twin := by
  rw [next, digit_now_of_current hx, digit_swap]

theorem digit_bare (sp : Space) (m : VarId) (i : Nat) (x : VarId) :
    sp.digit (sp.bare m i) x = if x.isPrimed ∨ x = m then 0 else sp.digit i x :=
  digit_encode (ite_digit_lt (fun x ↦ x.isPrimed = true ∨ x = m) i) x

theorem now_eq_iff {i j : Nat} :
    sp.now i = sp.now j ↔ ∀ x, x.isPrimed = false → sp.digit i x = sp.digit j x := by
  constructor
  · intro h x hx
    rw [← digit_now_of_current hx, h, digit_now_of_current hx]
  · intro h
    refine eq_of_digit_eq (sp.now_lt i) (sp.now_lt j) fun x ↦ ?_
    rw [digit_now, digit_now]
    split
    · rfl
    · exact h x (by rwa [← Bool.not_eq_true])

theorem next_eq_now_iff {i j : Nat} :
    sp.next i = sp.now j ↔ ∀ x, x.isPrimed = false → sp.digit i x.twin = sp.digit j x := by
  rw [next, now_eq_iff]
  simp only [digit_swap]

theorem bare_eq_iff {m : VarId} {i j : Nat} :
    sp.bare m i = sp.bare m j ↔
      ∀ x, x.isPrimed = false → x ≠ m → sp.digit i x = sp.digit j x := by
  constructor
  · intro h x hx hm
    have hd := congrArg (sp.digit · x) h
    simpa only [digit_bare, hx, hm, Bool.false_eq_true, or_self, if_false] using hd
  · intro h
    refine eq_of_digit_eq (sp.bare_lt m i) (sp.bare_lt m j) fun x ↦ ?_
    rw [digit_bare, digit_bare]
    split
    · rfl
    · rename_i hx
      rw [not_or, Bool.not_eq_true] at hx
      exact h x hx.1 hx.2

@[simp] theorem now_now (sp : Space) (i : Nat) : sp.now (sp.now i) = sp.now i :=
  now_eq_iff.mpr fun _ hx ↦ digit_now_of_current hx i

@[simp] theorem now_next (sp : Space) (i : Nat) : sp.now (sp.next i) = sp.next i := now_now _ _

@[simp] theorem bare_now (sp : Space) (m : VarId) (i : Nat) : sp.bare m (sp.now i) = sp.bare m i :=
  bare_eq_iff.mpr fun _ hx _ ↦ digit_now_of_current hx i

@[simp] theorem bare_bare (sp : Space) (m : VarId) (i : Nat) :
    sp.bare m (sp.bare m i) = sp.bare m i :=
  bare_eq_iff.mpr fun x hx hm ↦ by
    rw [digit_bare, if_neg (not_or.mpr ⟨Bool.not_eq_true _ ▸ hx, hm⟩)]

/-! ## Agreement as equality of states -/

theorem agreeOff_primedIds_iff {i j : Nat} :
    sp.AgreeOff sp.registry.primedIds i j ↔ sp.now i = sp.now j := by
  rw [now_eq_iff]
  constructor
  · intro h x hx
    refine h x fun hmem ↦ ?_
    rw [((sp.registry.mem_primedIds).mp hmem).2] at hx
    simp at hx
  · intro h x hx
    by_cases hid : x ∈ sp.registry.ids
    · refine h x ?_
      rw [Bool.eq_false_iff]
      exact fun hp ↦ hx (sp.registry.mem_primedIds.mpr ⟨hid, hp⟩)
    · rw [digit_of_not_mem hid, digit_of_not_mem hid]

theorem agreeOff_currentIds_swap_iff {i j : Nat} :
    sp.AgreeOff sp.registry.currentIds (sp.swap j) i ↔ sp.next i = sp.now j := by
  rw [next_eq_now_iff]
  constructor
  · intro h x hx
    have hmem : x.twin ∉ sp.registry.currentIds := fun hmem ↦ by
      have hp := (sp.registry.mem_currentIds.mp hmem).2
      rw [VarId.isPrimed_twin, hx] at hp
      simp at hp
    have hd := h x.twin hmem
    rw [digit_swap, VarId.twin_twin] at hd
    exact hd.symm
  · intro h x hx
    rw [digit_swap]
    by_cases hid : x ∈ sp.registry.ids
    · have hp : x.isPrimed = true := by
        rw [← Bool.not_eq_false]
        exact fun hp ↦ hx (sp.registry.mem_currentIds.mpr ⟨hid, hp⟩)
      have hd := h x.twin (by rw [VarId.isPrimed_twin, hp]; rfl)
      rw [VarId.twin_twin] at hd
      exact hd.symm
    · have hid' : x.twin ∉ sp.registry.ids := fun hid' ↦
        hid (VarId.twin_twin x ▸ sp.registry.twin_mem_ids hid')
      rw [digit_of_not_mem hid, digit_of_not_mem hid']

theorem AgreeOff.bare_eq {m : VarId} {i j : Nat} (h : sp.AgreeOff [m] i j) :
    sp.bare m i = sp.bare m j :=
  bare_eq_iff.mpr fun x _ hxm ↦ h x fun hmem ↦ hxm (List.mem_singleton.mp hmem)

end Space

namespace StateSet

variable {sp : Space}

/-! ## Dependence -/

/-- Membership in `s` depends only on the copies with the property `p`. -/
def DependsOn (s : StateSet sp) (p : VarId → Prop) : Prop :=
  ∀ i j, i < sp.size → j < sp.size → (∀ x, p x → sp.digit i x = sp.digit j x) → (i ∈ s ↔ j ∈ s)

/-- Membership in `s` depends only on current copies. -/
def Current (s : StateSet sp) : Prop := s.DependsOn fun x ↦ x.isPrimed = false

/-- Membership in `s` depends only on current copies other than `m`. -/
def Untagged (m : VarId) (s : StateSet sp) : Prop :=
  s.DependsOn fun x ↦ x.isPrimed = false ∧ x ≠ m

namespace DependsOn

variable {s t : StateSet sp} {p q : VarId → Prop}

theorem mono (h : s.DependsOn p) (hpq : ∀ x, p x → q x) : s.DependsOn q :=
  fun i j hi hj hij ↦ h i j hi hj fun x hx ↦ hij x (hpq x hx)

/-- Only the copies of variables matter. -/
theorem mono_ids (h : s.DependsOn p) (hpq : ∀ x ∈ sp.registry.ids, p x → q x) : s.DependsOn q := by
  intro i j hi hj hij
  refine h i j hi hj fun x hx ↦ ?_
  by_cases hid : x ∈ sp.registry.ids
  · exact hij x (hpq x hid hx)
  · rw [Space.digit_of_not_mem hid, Space.digit_of_not_mem hid]

theorem empty (p : VarId → Prop) : (∅ : StateSet sp).DependsOn p := fun i j _ _ _ ↦
  iff_of_false (not_mem_empty i) (not_mem_empty j)

theorem univ (p : VarId → Prop) : (univ : StateSet sp).DependsOn p := fun _ _ hi hj _ ↦
  iff_of_true (mem_univ.mpr hi) (mem_univ.mpr hj)

theorem union (hs : s.DependsOn p) (ht : t.DependsOn p) : (s ∪ t).DependsOn p := by
  intro i j hi hj hij
  rw [mem_union, mem_union, hs i j hi hj hij, ht i j hi hj hij]

theorem inter (hs : s.DependsOn p) (ht : t.DependsOn p) : (s ∩ t).DependsOn p := by
  intro i j hi hj hij
  rw [mem_inter, mem_inter, hs i j hi hj hij, ht i j hi hj hij]

theorem sdiff (hs : s.DependsOn p) (ht : t.DependsOn p) : (s \ t).DependsOn p := by
  intro i j hi hj hij
  rw [mem_sdiff, mem_sdiff, hs i j hi hj hij, ht i j hi hj hij]

theorem unionAll {ss : List (StateSet sp)} (h : ∀ s ∈ ss, s.DependsOn p) :
    (unionAll ss).DependsOn p := by
  intro i j hi hj hij
  rw [mem_unionAll, mem_unionAll]
  exact exists_congr fun s ↦ and_congr_right fun hs ↦ h s hs i j hi hj hij

theorem literal {x : VarId} (hx : x ∈ sp.registry.ids) (hp : p x) (value : Nat) :
    (literal x value : StateSet sp).DependsOn p := by
  intro i j hi hj hij
  rw [mem_literal hx, mem_literal hx, hij x hp, and_iff_right hi, and_iff_right hj]

/-- A set that depends on `p` says nothing about `xs` once these are forgotten. -/
theorem forget {xs : List VarId} (hxs : ∀ x ∈ xs, x ∈ sp.registry.ids) (hs : s.DependsOn p) :
    (s.forget xs).DependsOn fun x ↦ p x ∧ x ∉ xs := by
  have key : ∀ i j, j < sp.size → (∀ x, p x ∧ x ∉ xs → sp.digit i x = sp.digit j x) →
      i ∈ s.forget xs → j ∈ s.forget xs := by
    intro i j hj hij hi
    obtain ⟨-, k, hk, hik⟩ := (mem_forget hxs).mp hi
    -- the witness is `j`, changed on `xs` to what `k` says
    obtain ⟨u, hu, hin, hout⟩ := sp.exists_mixed k j (· ∈ xs)
    refine (mem_forget hxs).mpr ⟨hj, u, (hs k u (lt_size hk) hu fun x hx ↦ ?_).mp hk,
      fun x hx ↦ (hout x hx).symm⟩
    by_cases hmem : x ∈ xs
    · exact (hin x hmem).symm
    · rw [hout x hmem, ← hik x hmem, hij x ⟨hx, hmem⟩]
  intro i j hi hj hij
  exact ⟨key i j hj hij, key j i hi fun x hx ↦ (hij x hx).symm⟩

end DependsOn

theorem forgetOne_eq_self_iff {s : StateSet sp} {x : VarId} (hx : x ∈ sp.registry.ids) :
    s.forgetOne x = s ↔ x ∉ s.support := by
  rw [support, List.mem_filter, and_iff_right hx, bne_iff_ne, Ne, not_not]

/-- **A copy outside the support does not matter.** -/
theorem dependsOn_ne_iff {s : StateSet sp} {x : VarId} (hx : x ∈ sp.registry.ids) :
    s.DependsOn (· ≠ x) ↔ x ∉ s.support := by
  rw [← forgetOne_eq_self_iff hx]
  constructor
  · intro h
    refine ext_mem fun i ↦ ?_
    rw [mem_forgetOne hx]
    constructor
    · rintro ⟨hi, j, hj, hij⟩
      exact (h i j hi (lt_size hj) fun y hy ↦ hij y fun hm ↦ hy (List.mem_singleton.mp hm)).mpr hj
    · intro hi
      exact ⟨lt_size hi, i, hi, Space.AgreeOff.refl [x] i⟩
  · intro h i j hi hj hij
    have hagree : sp.AgreeOff [x] i j := fun y hy ↦ hij y fun e ↦ hy (List.mem_singleton.mpr e)
    constructor
    · intro hmem
      rw [← h, mem_forgetOne hx]
      exact ⟨hj, i, hmem, hagree.symm⟩
    · intro hmem
      rw [← h, mem_forgetOne hx]
      exact ⟨hi, j, hmem, hagree⟩

/-! ## Sets of states -/

variable {s : StateSet sp}

theorem Untagged.current {m : VarId} (h : s.Untagged m) : s.Current := h.mono fun _ hx ↦ hx.1

theorem Current.mem_iff_of_now_eq (h : s.Current) {i j : Nat} (hi : i < sp.size)
    (hj : j < sp.size) (hij : sp.now i = sp.now j) : i ∈ s ↔ j ∈ s :=
  h i j hi hj (Space.now_eq_iff.mp hij)

theorem Untagged.mem_iff_of_bare_eq {m : VarId} (h : s.Untagged m) {i j : Nat} (hi : i < sp.size)
    (hj : j < sp.size) (hij : sp.bare m i = sp.bare m j) : i ∈ s ↔ j ∈ s :=
  h i j hi hj fun x hx ↦ Space.bare_eq_iff.mp hij x hx.1 hx.2

/-- The primed form of a set of states holds the steps into it. -/
theorem Current.mem_prime_iff (h : s.Current) {i : Nat} (hi : i < sp.size) :
    i ∈ s.prime ↔ sp.next i ∈ s := by
  rw [mem_prime, and_iff_right hi]
  exact h.mem_iff_of_now_eq (sp.swap_lt i) (sp.next_lt i) (sp.now_next i).symm

theorem mem_succ {steps : StateSet sp} {j : Nat} :
    j ∈ s.succ steps ↔ j < sp.size ∧ ∃ v ∈ s, v ∈ steps ∧ sp.next v = sp.now j := by
  have hids : ∀ x ∈ sp.registry.currentIds, x ∈ sp.registry.ids := fun x hx ↦
    (sp.registry.mem_currentIds.mp hx).1
  rw [succ, mem_prime, mem_forget hids, and_iff_right (sp.swap_lt j)]
  simp only [mem_inter, and_assoc, Space.agreeOff_currentIds_swap_iff]

theorem current_succ {steps : StateSet sp} : (s.succ steps).Current := by
  intro i j hi hj hij
  rw [mem_succ, mem_succ, and_iff_right hi, and_iff_right hj, Space.now_eq_iff.mpr hij]

end StateSet

end JusticeViolation

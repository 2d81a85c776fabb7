import JusticeViolation.Proofs.Game.Moves

/-!
# One choice for every state

`keepLeast x` keeps, state by state, the choices with the least value of `x`; `determinize` does so
for every next value of the environment in turn. So it keeps a choice of every state that had one,
nothing that was not there, and no two choices of one state that the environment could tell apart.
-/

namespace JusticeViolation.Game

variable {sp : Space} {g : Game sp}

/-- Two valuations give the environment the same next values. -/
def SameMove (g : Game sp) (v w : Nat) : Prop := ∀ x ∈ g.envNextIds, sp.digit v x = sp.digit w x

/-- No state has two different moves of the environment in `choices`. -/
def Functional (g : Game sp) (choices : StateSet sp) : Prop :=
  ∀ v ∈ choices, ∀ w ∈ choices, sp.now v = sp.now w → g.SameMove v w

/-- Membership does not depend on the answer of the system. -/
def AnswerFree (g : Game sp) (choices : StateSet sp) : Prop :=
  ∀ v ∈ choices, ∀ w, w < sp.size → g.SameChoice v w → w ∈ choices

theorem SameMove.symm {v w : Nat} (h : g.SameMove v w) : g.SameMove w v :=
  fun x hx ↦ (h x hx).symm

/-- Environment and system own different variables. -/
theorem SameChoice.sameMove {v w : Nat} (h : g.SameChoice v w) : g.SameMove v w := by
  intro x hx
  refine h x fun hsys ↦ ?_
  rw [envNextIds, Registry.roleIds, List.mem_filter, Bool.and_eq_true] at hx
  rw [sysNextIds, Registry.roleIds, List.mem_filter, Bool.and_eq_true] at hsys
  have henv := hx.2.2
  have hsys := hsys.2.2
  cases hv : sp.registry.declaration? x with
  | none =>
    rw [hv] at henv
    simp at henv
  | some v =>
    rw [hv, Option.any_some, beq_iff_eq] at henv hsys
    rw [henv] at hsys
    simp at hsys

/-! ## The least value of one copy -/

/-- What `keepLeast` has kept, and which states it has covered, after the values below `n`. -/
private structure LeastBelow (x : VarId) (choices : StateSet sp) (n : Nat)
    (kept covered : StateSet sp) : Prop where
  mem_kept : ∀ v, v ∈ kept ↔ v ∈ choices ∧ sp.digit v x < n ∧
    ∀ w ∈ choices, sp.now w = sp.now v → sp.digit v x ≤ sp.digit w x
  mem_covered : ∀ i, i ∈ covered ↔
    i < sp.size ∧ ∃ w ∈ choices, sp.now w = sp.now i ∧ sp.digit w x < n

namespace LeastBelow

variable {x : VarId} {choices kept covered : StateSet sp} {n : Nat}

private theorem zero : LeastBelow x choices 0 (∅ : StateSet sp) ∅ where
  mem_kept := by simp
  mem_covered := by simp

/-- The next part: the value `n`, in the states that have no smaller one. -/
private theorem mem_part (h : LeastBelow x choices n kept covered) (hx : x ∈ sp.registry.ids)
    {v : Nat} : v ∈ (choices ∩ .literal x n) \ covered ↔ v ∈ choices ∧ sp.digit v x = n ∧
      ∀ w ∈ choices, sp.now w = sp.now v → n ≤ sp.digit w x := by
  rw [StateSet.mem_sdiff, StateSet.mem_inter, StateSet.mem_literal hx, h.mem_covered]
  constructor
  · rintro ⟨⟨hv, hlt, hd⟩, hno⟩
    refine ⟨hv, hd, fun w hw hwv ↦ ?_⟩
    by_contra hlt'
    exact hno ⟨hlt, w, hw, hwv, Nat.not_le.mp hlt'⟩
  · rintro ⟨hv, hd, hmin⟩
    refine ⟨⟨hv, StateSet.lt_size hv, hd⟩, ?_⟩
    rintro ⟨-, w, hw, hwv, hlt⟩
    exact absurd (hmin w hw hwv) (Nat.not_le.mpr hlt)

private theorem succ (h : LeastBelow x choices n kept covered) (hx : x ∈ sp.registry.ids) :
    LeastBelow x choices (n + 1) (kept ∪ (choices ∩ .literal x n) \ covered)
      (covered ∪ g.domain ((choices ∩ .literal x n) \ covered)) where
  mem_kept := by
    intro v
    rw [StateSet.mem_union, h.mem_kept, h.mem_part hx]
    constructor
    · rintro (⟨hv, hd, hmin⟩ | ⟨hv, hd, hmin⟩)
      · exact ⟨hv, by omega, hmin⟩
      · exact ⟨hv, by omega, fun w hw hwv ↦ hd ▸ hmin w hw hwv⟩
    · rintro ⟨hv, hd, hmin⟩
      rcases Nat.lt_succ_iff_lt_or_eq.mp hd with hlt | heq
      · exact Or.inl ⟨hv, hlt, hmin⟩
      · exact Or.inr ⟨hv, heq, fun w hw hwv ↦ heq ▸ hmin w hw hwv⟩
  mem_covered := by
    intro i
    rw [StateSet.mem_union, h.mem_covered, mem_domain]
    constructor
    · rintro (⟨hi, w, hw, hwi, hd⟩ | ⟨hi, w, hw, hwi⟩)
      · exact ⟨hi, w, hw, hwi, by omega⟩
      · obtain ⟨hw, hd, -⟩ := (h.mem_part hx).mp hw
        exact ⟨hi, w, hw, hwi, by omega⟩
    · rintro ⟨hi, w, hw, hwi, hd⟩
      by_cases hlow : ∃ u ∈ choices, sp.now u = sp.now i ∧ sp.digit u x < n
      · exact Or.inl ⟨hi, hlow⟩
      · refine Or.inr ⟨hi, w, (h.mem_part hx).mpr ⟨hw, ?_, fun u hu huw ↦ ?_⟩, hwi⟩
        · by_contra hne
          exact hlow ⟨w, hw, hwi, by omega⟩
        · by_contra hlt
          exact hlow ⟨u, hu, huw.trans hwi, Nat.not_le.mp hlt⟩

/-- An empty part changes nothing. -/
private theorem succ_of_isEmpty (g : Game sp) (h : LeastBelow x choices n kept covered)
    (hx : x ∈ sp.registry.ids) (hempty : ((choices ∩ .literal x n) \ covered).isEmpty = true) :
    LeastBelow x choices (n + 1) kept covered := by
  rw [StateSet.isEmpty_iff] at hempty
  have hnew := h.succ (g := g) hx
  refine ⟨fun v ↦ ?_, fun i ↦ ?_⟩
  · rw [← hnew.mem_kept, StateSet.mem_union, or_iff_left (hempty v)]
  · have hdom : i ∉ g.domain ((choices ∩ .literal x n) \ covered) := fun hi ↦ by
      obtain ⟨-, w, hw, -⟩ := mem_domain.mp hi
      exact hempty w hw
    rw [← hnew.mem_covered, StateSet.mem_union, or_iff_left hdom]

end LeastBelow

private theorem leastBelow_fold {x : VarId} (hx : x ∈ sp.registry.ids) (choices : StateSet sp)
    (n : Nat) :
    let state := (List.range n).foldl (fun (kept, covered) value ↦
      let part := (choices ∩ .literal x value) \ covered
      if part.isEmpty then (kept, covered) else (kept ∪ part, covered ∪ g.domain part))
      ((∅, ∅) : StateSet sp × StateSet sp)
    LeastBelow x choices n state.1 state.2 := by
  induction n with
  | zero => exact .zero
  | succ n ih =>
    rw [List.range_succ, List.foldl_append, List.foldl_cons, List.foldl_nil]
    generalize (List.range n).foldl _ _ = state at ih
    obtain ⟨kept, covered⟩ := state
    dsimp only at ih ⊢
    split
    · rename_i hempty
      exact ih.succ_of_isEmpty g hx hempty
    · exact ih.succ hx

theorem mem_keepLeast {x : VarId} (hx : x ∈ sp.registry.ids) {choices : StateSet sp} {v : Nat} :
    v ∈ g.keepLeast x choices ↔
      v ∈ choices ∧ ∀ w ∈ choices, sp.now w = sp.now v → sp.digit v x ≤ sp.digit w x := by
  rw [keepLeast, (leastBelow_fold hx choices (sp.domainSize x)).mem_kept v]
  exact and_congr_right fun _ ↦ and_iff_right (sp.digit_lt v x)

theorem exists_mem_keepLeast {x : VarId} (hx : x ∈ sp.registry.ids) {choices : StateSet sp}
    {v : Nat} (hv : v ∈ choices) : ∃ w ∈ g.keepLeast x choices, sp.now w = sp.now v := by
  classical
  have hex : ∃ n, ∃ w ∈ choices, sp.now w = sp.now v ∧ sp.digit w x = n :=
    ⟨_, v, hv, rfl, rfl⟩
  obtain ⟨w, hw, hwv, hd⟩ := Nat.find_spec hex
  refine ⟨w, (mem_keepLeast hx).mpr ⟨hw, fun u hu huw ↦ ?_⟩, hwv⟩
  rw [hd]
  exact Nat.find_min' hex ⟨u, hu, huw.trans hwv, rfl⟩

/-! ## All copies of the environment -/

private theorem foldl_keepLeast {xs : List VarId} (hxs : ∀ x ∈ xs, x ∈ sp.registry.ids)
    (choices : StateSet sp) :
    let kept := xs.foldl (fun choices x ↦ g.keepLeast x choices) choices
    (∀ v ∈ kept, v ∈ choices) ∧ (∀ v ∈ choices, ∃ w ∈ kept, sp.now w = sp.now v) ∧
      (∀ v ∈ kept, ∀ w ∈ kept, sp.now v = sp.now w → ∀ x ∈ xs, sp.digit v x = sp.digit w x) ∧
      ∀ v ∈ kept, ∀ w ∈ choices, sp.now v = sp.now w →
        (∀ x ∈ xs, sp.digit v x = sp.digit w x) → w ∈ kept := by
  induction xs generalizing choices with
  | nil =>
    refine ⟨fun v hv ↦ hv, fun v hv ↦ ⟨v, hv, rfl⟩, fun v _ w _ _ x hx ↦ ?_, fun _ _ w hw _ _ ↦ hw⟩
    exact absurd hx List.not_mem_nil
  | cons x xs ih =>
    have hx : x ∈ sp.registry.ids := hxs x List.mem_cons_self
    obtain ⟨hsub, htotal, huniq, hback⟩ :=
      ih (fun y hy ↦ hxs y (List.mem_cons_of_mem x hy)) (g.keepLeast x choices)
    rw [List.foldl_cons]
    refine ⟨fun v hv ↦ ((mem_keepLeast hx).mp (hsub v hv)).1, fun v hv ↦ ?_,
      fun v hv w hw hvw y hy ↦ ?_, fun v hv w hw hvw hd ↦ ?_⟩
    · obtain ⟨u, hu, huv⟩ := exists_mem_keepLeast (g := g) hx hv
      obtain ⟨w, hw, hwu⟩ := htotal u hu
      exact ⟨w, hw, hwu.trans huv⟩
    · rcases List.mem_cons.mp hy with rfl | hy
      · have hvl := (mem_keepLeast hx).mp (hsub v hv)
        have hwl := (mem_keepLeast hx).mp (hsub w hw)
        exact Nat.le_antisymm (hvl.2 w hwl.1 hvw.symm) (hwl.2 v hvl.1 hvw)
      · exact huniq v hv w hw hvw y hy
    · refine hback v hv w ((mem_keepLeast hx).mpr ⟨hw, fun u hu huw ↦ ?_⟩) hvw
        fun y hy ↦ hd y (List.mem_cons_of_mem x hy)
      rw [← hd x List.mem_cons_self]
      exact ((mem_keepLeast hx).mp (hsub v hv)).2 u hu (huw.trans hvw.symm)

theorem determinize_subset {choices : StateSet sp} {v : Nat} (hv : v ∈ g.determinize choices) :
    v ∈ choices :=
  (foldl_keepLeast (fun _ hx ↦ (envNextIds_mem hx).1) choices).1 v hv

/-- Every state that had a choice keeps one. -/
theorem exists_mem_determinize {choices : StateSet sp} {v : Nat} (hv : v ∈ choices) :
    ∃ w ∈ g.determinize choices, sp.now w = sp.now v :=
  (foldl_keepLeast (fun _ hx ↦ (envNextIds_mem hx).1) choices).2.1 v hv

/-- **No state keeps two moves.** -/
theorem functional_determinize (choices : StateSet sp) : g.Functional (g.determinize choices) :=
  (foldl_keepLeast (fun _ hx ↦ (envNextIds_mem hx).1) choices).2.2.1

/-- A choice is kept with all the answers to it. -/
theorem mem_determinize_of_sameChoice {choices : StateSet sp} {v w : Nat}
    (hv : v ∈ g.determinize choices) (hw : w ∈ choices) (hvw : g.SameChoice v w) :
    w ∈ g.determinize choices :=
  (foldl_keepLeast (fun _ hx ↦ (envNextIds_mem hx).1) choices).2.2.2 v hv w hw hvw.now_eq
    hvw.sameMove

theorem answerFree_determinize {choices : StateSet sp} (h : g.AnswerFree choices) :
    g.AnswerFree (g.determinize choices) := fun v hv w hw hvw ↦
  mem_determinize_of_sameChoice hv (h v (determinize_subset hv) w hw hvw) hvw

theorem domain_determinize (choices : StateSet sp) :
    g.domain (g.determinize choices) = g.domain choices := by
  refine StateSet.ext_mem fun i ↦ ?_
  rw [mem_domain, mem_domain]
  refine and_congr_right fun _ ↦ ⟨?_, ?_⟩
  · rintro ⟨v, hv, hvi⟩
    exact ⟨v, determinize_subset hv, hvi⟩
  · rintro ⟨v, hv, hvi⟩
    obtain ⟨w, hw, hwv⟩ := exists_mem_determinize hv
    exact ⟨w, hw, hwv.trans hvi⟩

end JusticeViolation.Game

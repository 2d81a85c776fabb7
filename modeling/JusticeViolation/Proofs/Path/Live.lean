import JusticeViolation.Proofs.Path.Round

/-!
# Mazes in which paths go on

A maze is *live* if from every state of a cell the environment forces the cells that the cell leads
to, or the escape, but from none the escape alone. Then every state has a permitted choice, and
every permitted choice can land in some cell, so no path is ever stuck. A step prefers the highest
column in which a choice can land. One that goes to the first column therefore found no choice for
a higher one; so all its permitted choices land where it goes, and no state is left behind.
-/

namespace JusticeViolation.Maze

variable {sp : Space} {g : Game sp} {m : Maze sp}

/-- From every cell the environment forces where the cell leads to, and not the escape alone. -/
structure Live (g : Game sp) (m : Maze sp) : Prop where
  exists_target : ∀ p : Point sp, p.row < m.cells.length → ∃ row top, m.target? p = some (row, top)
  forced : ∀ (p : Point sp) (row top i : Nat), i ∈ cellAt m.cells p.row p.column →
    m.target? p = some (row, top) → ∃ v, sp.now v = sp.now i ∧
      v ∈ g.forcing (m.reach row top ∪ m.escape) ∧ v ∈ g.entering row
  unforced : ∀ v, m.Inside v → v ∉ g.forcing m.escape

variable {inner : StateSet sp} {p : Point sp} {s : Step sp} (hm : m.Fits g) (hlive : m.Live g)
  (hp : p.Fits m) (hk : m.Commits g inner)

include hm hlive hp hk

omit hm in
/-- Every state of a point has a permitted choice: the committed one, or else some new one. -/
theorem Live.exists_allowed {row top i : Nat} (htarget : m.target? p = some (row, top))
    (hi : i ∈ p.states) : ∃ v ∈ m.allowed g inner p row top, sp.now v = sp.now i := by
  have hmem : ∀ {v}, v < sp.size → sp.now v = sp.now i → v ∈ p.states := fun hv hvi ↦
    (hp.current.mem_iff_of_now_eq hv (StateSet.lt_size hi) hvi).mpr hi
  by_cases hcommitted : i ∈ g.domain inner
  · obtain ⟨-, v, hv, hvi⟩ := Game.mem_domain.mp hcommitted
    have hvp := hmem (StateSet.lt_size hv) hvi
    obtain ⟨row', top', htarget', hforce, hentering⟩ := hk.follows v hv p (hp.subset v hvp)
    rw [htarget, Option.some.injEq, Prod.mk.injEq] at htarget'
    obtain ⟨rfl, rfl⟩ := htarget'
    exact ⟨v, (mem_allowed hp.current).mpr ⟨hforce, hentering, hvp, Or.inl hv⟩, hvi⟩
  · obtain ⟨v, hvi, hforce, hentering⟩ := hlive.forced p row top i (hp.subset i hi) htarget
    have hlt := StateSet.lt_size hforce
    refine ⟨v, (mem_allowed hp.current).mpr ⟨hforce, hentering, hmem hlt hvi, Or.inr ?_⟩, hvi⟩
    exact fun hd ↦ hcommitted (((Game.current_domain inner).mem_iff_of_now_eq hlt
      (StateSet.lt_size hi) hvi).mp hd)

omit hk in
/-- Every permitted choice can land in some cell. -/
theorem Live.exists_landing {row top v : Nat} (hv : v ∈ m.allowed g inner p row top) :
    ∃ column, column ≤ top ∧ v ∈ g.landing (cellAt m.cells row column) := by
  obtain ⟨hforce, -, hvp, -⟩ := (mem_allowed hp.current).mp hv
  obtain ⟨henv, hall⟩ := (Game.mem_forcing (hm.current_target row top)).mp hforce
  have hno := hlive.unforced v ⟨p.row, p.column, hp.subset v hvp⟩
  rw [Game.mem_forcing hm.current_escape, not_and] at hno
  obtain ⟨w, hw⟩ := not_forall.mp (hno henv)
  rw [Classical.not_imp, Classical.not_imp] at hw
  obtain ⟨hsys, hvw, hescape⟩ := hw
  obtain ⟨column, hcolumn, hcell⟩ :=
    mem_reach.mp ((StateSet.mem_union.mp (hall w hsys hvw)).resolve_right hescape)
  exact ⟨column, hcolumn, (Game.mem_landing (hm.current_cell row column)).mpr
    ⟨StateSet.lt_size hv, w, hsys, hvw, hcell⟩⟩

/-- **No path is stuck.** -/
theorem Live.step?_ne_none {i : Nat} (hi : i ∈ p.states) : m.step? g inner p ≠ none := by
  obtain ⟨row, top, htarget⟩ :=
    hlive.exists_target p (row_lt_of_mem_cellAt (hp.subset i hi))
  obtain ⟨v, hv, -⟩ := hlive.exists_allowed hp hk htarget hi
  obtain ⟨column, hcolumn, hland⟩ := hlive.exists_landing hm hp hv
  exact Maze.step?_ne_none htarget hcolumn (hm.current_cell row column) hv hland

/-- **A step to the first column leaves no state behind.** -/
theorem Live.movers_eq (hs : g.Shaped) (hstep : m.step? g inner p = some s)
    (hzero : s.next.column = 0) : s.movers = p.states := by
  have hsound := sound_of_step? hs hm hp hk hstep
  obtain ⟨row, top, column, htarget, -, hto, hhigher⟩ := step?_eq_some hstep
  obtain ⟨-, hchosen, hmovers, hnext, -⟩ := stepTo?_eq_some hto
  rw [hnext] at hzero
  obtain rfl : column = 0 := hzero
  refine StateSet.ext_mem fun i ↦ ⟨hsound.movers_subset i, fun hi ↦ ?_⟩
  obtain ⟨v, hv, hvi⟩ := hlive.exists_allowed hp hk htarget hi
  -- the choice lands somewhere, and not in a higher column
  have hland : v ∈ g.landing (cellAt m.cells row 0) := by
    obtain ⟨c, hc, hland⟩ := hlive.exists_landing hm hp hv
    rcases Nat.eq_zero_or_pos c with rfl | hpos
    · exact hland
    · exact absurd hland (stepTo?_eq_none (hm.current_cell row c) (hhigher c hpos hc) hv)
  rw [hmovers, hchosen, Game.domain_determinize]
  exact Game.mem_domain.mpr
    ⟨StateSet.lt_size hi, v, StateSet.mem_inter.mpr ⟨hv, hland⟩, hvi⟩

end JusticeViolation.Maze

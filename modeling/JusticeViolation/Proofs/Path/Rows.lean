import JusticeViolation.Split
import JusticeViolation.Proofs.Path.Run
import JusticeViolation.Proofs.Path.Step

/-!
# Paths stay in the rows and cells of their maze

A step goes on in the row of its point or, modulo their number, to the next row. There it enters a
column up to the one that the point leads to: the column before that of the point, or the last one
of the next row. So the points of all walks are in rows of the maze if the seeds are, and there are
cells for them if there are cells for the seeds, whatever the game says.
-/

namespace JusticeViolation

variable {sp : Space} {g : Game sp} {m : Maze sp}

namespace Maze

variable {inner allowed : StateSet sp} {p last seed : Point sp} {row top column : Nat} {s : Step sp}
  {points spill seeds pending : List (Point sp)}

/-! ## What is kept from point to point -/

/-- What is said of points by `P` does not depend on their states, and steps keep it. -/
structure Stable (g : Game sp) (m : Maze sp) (P : Point sp → Prop) : Prop where
  narrow : ∀ p states, P p → P { p with states }
  step : ∀ inner p s, P p → m.step? g inner p = some s → P s.next ∧ ∀ q ∈ s.spill, P q

/-- The next seed is a pending point, narrowed. -/
theorem forall_nextSeed? {P : Point sp → Prop} (hnarrow : ∀ p states, P p → P { p with states })
    {covered : StateSet sp} {rest : List (Point sp)}
    (h : nextSeed? covered pending = some (seed, rest)) (hpending : ∀ p ∈ pending, P p) :
    P seed ∧ ∀ p ∈ rest, P p := by
  obtain ⟨passed, p, rfl, rfl, -⟩ := exists_of_nextSeed?_eq_some h
  obtain ⟨-, hpending⟩ := List.forall_mem_append.mp hpending
  obtain ⟨hp, hrest⟩ := List.forall_mem_cons.mp hpending
  exact ⟨hnarrow p _ hp, hrest⟩

namespace Stable

variable {P : Point sp → Prop} (h : m.Stable g P)

include h

/-- **One walk.** -/
theorem walk (inner : StateSet sp) (hseed : P seed) :
    (∀ p ∈ (m.walk g inner seed).points, P p) ∧ ∀ p ∈ (m.walk g inner seed).spill, P p := by
  obtain ⟨points, last, ⟨hpoints, hlast, hspill⟩, hends⟩ := m.walk_induction (g := g)
    (P := fun _ points last spill ↦ (∀ p ∈ points, P p) ∧ P last ∧ ∀ p ∈ spill, P p)
    (fun ⟨hpoints, hlast, hspill⟩ hstep ↦ by
      obtain ⟨hnext, hmore⟩ := h.step _ _ _ hlast hstep
      exact ⟨List.forall_mem_append.mpr ⟨hpoints,
        List.forall_mem_singleton.mpr (h.narrow _ _ hlast)⟩, hnext,
        List.forall_mem_append.mpr ⟨hspill, hmore⟩⟩)
    inner seed ⟨fun _ hp ↦ absurd hp List.not_mem_nil, hseed,
      fun _ hp ↦ absurd hp List.not_mem_nil⟩
  refine ⟨?_, hspill⟩
  rcases hends.points_eq with hpoints' | hpoints'
  · exact hpoints' ▸ hpoints
  · exact hpoints' ▸ List.forall_mem_append.mpr ⟨hpoints, List.forall_mem_singleton.mpr hlast⟩

/-- **All walks.** They begin where `P` holds, as the seeds do. -/
theorem forall_walks {Q : Walk sp → Prop} (hwalk : ∀ inner seed, P seed → Q (m.walk g inner seed))
    (hseeds : ∀ p ∈ seeds, P p) : ∀ w ∈ (m.trace g inner seeds).walks, Q w := by
  have hadd : ∀ {t : Tracing sp} {seed : Point sp}, (∀ w ∈ t.walks, Q w) → P seed →
      ∀ w ∈ (t.add (m.walk g t.inner seed)).walks, Q w := fun ht hseed ↦
    List.forall_mem_append.mpr ⟨ht, List.forall_mem_singleton.mpr (hwalk _ _ hseed)⟩
  obtain ⟨pending, covered, t, ⟨hpending, hwalks⟩, -, hends⟩ := m.trace_induction (g := g)
    (P := fun pending _ t ↦ (∀ p ∈ pending, P p) ∧ ∀ w ∈ t.walks, Q w)
    (fun ⟨hpending, hwalks⟩ hseed _ ↦ by
      obtain ⟨hstart, hrest⟩ := forall_nextSeed? h.narrow hseed hpending
      exact ⟨List.forall_mem_append.mpr ⟨hrest, (h.walk _ hstart).2⟩, hadd hwalks hstart⟩)
    inner seeds ⟨hseeds, fun _ hw ↦ absurd hw List.not_mem_nil⟩
  generalize m.trace g inner seeds = result at hends ⊢
  cases hends with
  | done => exact hwalks
  | exhausted => exact hwalks
  | broken hseed => exact hadd hwalks (forall_nextSeed? h.narrow hseed hpending).1

end Stable

/-! ## Rows -/

/-- All points are in rows of the maze. -/
def InRows (m : Maze sp) (ps : List (Point sp)) : Prop := ∀ p ∈ ps, p.row < m.cells.length

theorem InRows.append {ps qs : List (Point sp)} (hp : m.InRows ps) (hq : m.InRows qs) :
    m.InRows (ps ++ qs) := fun p h ↦ (List.mem_append.mp h).elim (hp p) (hq p)

theorem inRows_singleton : m.InRows [p] ↔ p.row < m.cells.length := by
  rw [InRows, List.forall_mem_singleton]

theorem stable_row : m.Stable g (·.row < m.cells.length) where
  narrow := fun _ _ hp ↦ hp
  step := fun inner p s hp h ↦ by
    obtain ⟨row, top, column, htarget, -, hstep, -⟩ := step?_eq_some h
    obtain ⟨-, -, -, hnext, hspill, -⟩ := stepTo?_eq_some hstep
    have hrow := row_lt_of_target? htarget hp
    refine ⟨by rw [hnext]; exact hrow, fun q hq ↦ ?_⟩
    rcases hspill q hq with rfl | ⟨c, rfl⟩
    · exact hp
    · exact hrow

theorem inRows_walk (inner : StateSet sp) (hrow : seed.row < m.cells.length) :
    m.InRows (m.walk g inner seed).points ∧ m.InRows (m.walk g inner seed).spill :=
  stable_row.walk inner hrow

theorem inRows_nextSeed? {covered : StateSet sp} {rest : List (Point sp)}
    (h : nextSeed? covered pending = some (seed, rest)) (hp : m.InRows pending) :
    seed.row < m.cells.length ∧ m.InRows rest :=
  forall_nextSeed? (fun _ _ hp ↦ hp) h hp

theorem inRows_trace (hseeds : m.InRows seeds) :
    ∀ w ∈ (m.trace g inner seeds).walks, m.InRows w.points :=
  stable_row.forall_walks (fun _ _ hseed ↦ (inRows_walk _ hseed).1) hseeds

/-! ## Cells -/

/-- There is a cell for a point. -/
structure HasCell (m : Maze sp) (p : Point sp) : Prop where
  row_lt : p.row < m.cells.length
  column_lt : p.column < (m.row p.row).length

/-- A point with a state of its cell has a cell. -/
theorem hasCell_of_mem {i : Nat} (hi : i ∈ cellAt m.cells p.row p.column) : m.HasCell p :=
  ⟨row_lt_of_mem_cellAt hi, column_lt_of_mem_cellAt hi⟩

/-- A point with a cell leads to a column of some row, if it leads anywhere. -/
theorem HasCell.target (hp : m.HasCell p) (h : m.target? p = some (row, top)) :
    row < m.cells.length ∧ top < (m.row row).length := by
  refine ⟨row_lt_of_target? h hp.row_lt, ?_⟩
  rw [target?] at h
  split at h
  · obtain ⟨rfl, rfl⟩ := Prod.mk.inj (Option.some.inj h)
    exact (Nat.sub_le _ _).trans_lt hp.column_lt
  · dsimp only at h
    split at h
    · cases h
    · rename_i n hlength
      obtain ⟨rfl, rfl⟩ := Prod.mk.inj (Option.some.inj h)
      exact hlength ▸ Nat.lt_succ_self n

/-- What a step spills lies in the cell that it leaves, or in the row that it enters. -/
theorem cell_of_mem_spill (h : m.stepTo? g allowed p row top column = some s) {q : Point sp}
    (hq : q ∈ s.spill) :
    (q.row = p.row ∧ q.column = p.column) ∨ (q.row = row ∧ q.column ≤ top) := by
  unfold stepTo? at h
  dsimp only at h
  split at h
  · cases h
  · split at h
    · cases h
    · rw [← Option.some.inj h] at hq
      rcases List.mem_append.mp (List.mem_filter.mp hq).1 with hq | hq
      · obtain ⟨other, hother, rfl⟩ := List.mem_map.mp hq
        have hle := List.mem_range.mp (List.mem_filter.mp hother).1
        exact Or.inr ⟨rfl, Nat.lt_succ_iff.mp hle⟩
      · rw [List.mem_singleton.mp hq]
        exact Or.inl ⟨rfl, rfl⟩

/-- **A step leads from cell to cell**, and what it spills has a cell. -/
theorem stable_hasCell : m.Stable g m.HasCell where
  narrow := fun _ _ hp ↦ ⟨hp.row_lt, hp.column_lt⟩
  step := fun inner p s hp h ↦ by
    obtain ⟨row, top, column, htarget, hcolumn, hstep, -⟩ := step?_eq_some h
    obtain ⟨-, -, -, hnext, -⟩ := stepTo?_eq_some hstep
    obtain ⟨hrow, htop⟩ := hp.target htarget
    refine ⟨hnext ▸ ⟨hrow, hcolumn.trans_lt htop⟩, fun q hq ↦ ?_⟩
    rcases cell_of_mem_spill hstep hq with ⟨hqrow, hqcolumn⟩ | ⟨hqrow, hqcolumn⟩
    · exact ⟨hqrow ▸ hp.row_lt, hqrow ▸ hqcolumn ▸ hp.column_lt⟩
    · exact ⟨hqrow ▸ hrow, hqrow ▸ hqcolumn.trans_lt htop⟩

end Maze

/-- Seeds lie in cells. -/
theorem Item.hasCell_seeds (item : Item sp) (m : Maze sp) :
    ∀ p ∈ item.seeds g m.cells, m.HasCell p := by
  intro p hp
  obtain ⟨hmem, hne⟩ := List.mem_filter.mp hp
  obtain ⟨q, -, rfl⟩ := List.mem_map.mp hmem
  rw [Bool.not_eq_true', StateSet.isEmpty_eq_false_iff] at hne
  obtain ⟨i, hi⟩ := hne
  exact Maze.hasCell_of_mem (StateSet.mem_inter.mp hi).1

theorem Item.inRows_seeds (item : Item sp) (m : Maze sp) : m.InRows (item.seeds g m.cells) :=
  fun p hp ↦ (item.hasCell_seeds m p hp).row_lt

end JusticeViolation

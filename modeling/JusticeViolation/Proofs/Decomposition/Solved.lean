import JusticeViolation.Proofs.Decomposition.Run
import JusticeViolation.Proofs.Path.Closing

/-!
# The ranks of a solved game

The layers of a solved game say of every state where the environment can force the play: into a
lower rank, or into a state of the rank that the next row holds, or the same row in an earlier
column. The environment chooses the row that it enters along with its move, and what lies in a lower
rank is in one that the rank leads to. So the maze of every rank is live: all its walks close, and
no rank breaks the decomposition off.
-/

namespace JusticeViolation

variable {sp : Space} {g : Game sp}

/-! ## Where the environment forces the play -/

namespace Game

/-- The state `i` lies below a rank, or in the rank and in a row of it up to a column. -/
def Lands (g : Game sp) (r row top i : Nat) : Prop :=
  i ∈ g.below r ∨ i ∈ g.level r ∧ ∃ column, column ≤ top ∧ g.FirstIn r row column i

theorem OfStates.lands_of_bare_eq (ho : g.OfStates) {r row top i j : Nat} (hi : i < sp.size)
    (hj : j < sp.size) (hij : sp.bare g.marker i = sp.bare g.marker j)
    (h : g.Lands r row top i) : g.Lands r row top j := by
  rcases h with hbelow | ⟨hlevel, column, hcolumn, hfirst⟩
  · exact Or.inl (((ho.untagged_below r).mem_iff_of_bare_eq hi hj hij).mp hbelow)
  · exact Or.inr ⟨((ho.untagged_level r).mem_iff_of_bare_eq hi hj hij).mp hlevel, column, hcolumn,
      (ho.firstIn_congr hi hj hij).mp hfirst⟩

namespace Solved

variable (h : g.Solved) {r row column i : Nat}

include h

theorem lands_of_mem_layer {top : Nat} (hcolumn : column ≤ top) (hi : i ∈ g.layer r row column) :
    g.Lands r row top i := by
  by_cases hbelow : i ∈ g.below r
  · exact Or.inl hbelow
  · obtain ⟨k, hk, hfirst⟩ := exists_firstIn hi
    exact Or.inr ⟨mem_level.mpr ⟨h.layer_subset r row column i hi, hbelow⟩, k, hk.trans hcolumn,
      hfirst⟩

theorem lands_of_mem_rank (hrow : row < g.numRows) (hi : i ∈ g.rank r) :
    g.Lands r row ((g.layers r row).length - 1) i := by
  by_cases hbelow : i ∈ g.below r
  · exact Or.inl hbelow
  · obtain ⟨c, hc⟩ := h.cover r row i (lt_numRanks_of_mem_rank hi) hrow hi hbelow
    obtain ⟨k, -, hfirst⟩ := exists_firstIn hc
    exact Or.inr ⟨mem_level.mpr ⟨hi, hbelow⟩, k, Nat.le_pred_of_lt hfirst.column_lt, hfirst⟩

/-- From a later column the environment forces an earlier one. -/
theorem canForce_of_pos (hrow : row < g.numRows) (hi : i ∈ g.level r)
    (hfirst : g.FirstIn r row column i) (hpos : 0 < column) :
    g.CanForce i (g.Lands r row (column - 1)) := by
  obtain ⟨hrank, hbelow⟩ := mem_level.mp hi
  obtain ⟨k, rfl⟩ : ∃ k, column = k + 1 := ⟨column - 1, by omega⟩
  refine (h.force_layers r row k i (lt_numRanks_of_mem_rank hrank) hrow hrank hbelow hfirst).imp
    fun j hj ↦ ?_
  rcases hj with ⟨c, hc, hlayer⟩ | hbelow
  · exact h.lands_of_mem_layer hc hlayer
  · exact Or.inl hbelow

/-- From the first column the environment forces the whole of any row. -/
theorem canForce_of_zero (hrow : row < g.numRows) (hi : i ∈ g.level r)
    (hfirst : g.FirstIn r row 0 i) {row' : Nat} (hrow' : row' < g.numRows) :
    g.CanForce i (g.Lands r row' ((g.layers r row').length - 1)) := by
  obtain ⟨hrank, hbelow⟩ := mem_level.mp hi
  exact (h.force_rank r row i (lt_numRanks_of_mem_rank hrank) hrow hrank hbelow hfirst).imp
    fun j hj ↦ h.lands_of_mem_rank hrow' hj

end Solved

end Game

/-! ## The maze of a rank -/

namespace Maze

variable {m : Maze sp} {p : Point sp}

theorem target?_of_pos (h : 0 < p.column) : m.target? p = some (p.row, p.column - 1) := by
  rw [target?, if_pos h]

theorem target?_of_zero (h : p.column = 0) (hne : m.row ((p.row + 1) % m.cells.length) ≠ []) :
    m.target? p = some ((p.row + 1) % m.cells.length,
      (m.row ((p.row + 1) % m.cells.length)).length - 1) := by
  rw [target?, if_neg (by omega)]
  dsimp only
  cases hlength : (m.row ((p.row + 1) % m.cells.length)).length with
  | zero => exact absurd (List.length_eq_zero_iff.mp hlength) hne
  | succ n => rfl

end Maze

namespace Item.Ready

variable {item : Item sp} {lower : StateSet sp} (hg : g.Shaped) (h : item.Ready g lower)

include h

theorem length_row (row : Nat) :
    ((item.maze g lower).row row).length = (g.layers item.node.rank row).length := by
  rw [Maze.row, maze, getD_mazeCells, List.length_map, h.cells_eq, Game.length_getD_cells]

include hg

/-- From the first column a point leads to the whole of the next row. -/
theorem target?_of_zero {p : Point sp} (hp : p.column = 0) :
    (p.row + 1) % g.numRows < g.numRows ∧ (item.maze g lower).target? p
      = some ((p.row + 1) % g.numRows,
        (g.layers item.node.rank ((p.row + 1) % g.numRows)).length - 1) := by
  have hrow : (p.row + 1) % g.numRows < g.numRows := Nat.mod_lt _ hg.numRows_pos
  refine ⟨hrow, ?_⟩
  rw [Maze.target?_of_zero hp, length_cells hg h, length_row h]
  intro hnil
  rw [← List.length_eq_zero_iff, length_cells hg h, length_row h, List.length_eq_zero_iff] at hnil
  exact hg.layers_ne_nil h.rank_lt hrow hnil

/-- Where a point leads to, the environment can force it to land. -/
theorem canForce_of_target? (hsolved : g.Solved) {p : Point sp} {row top i : Nat}
    (hi : i ∈ cellAt (item.maze g lower).cells p.row p.column)
    (htarget : (item.maze g lower).target? p = some (row, top)) :
    row < g.numRows ∧ g.CanForce i (g.Lands item.node.rank row top) := by
  obtain ⟨hrow, hlevel, hfirst, -, -⟩ := (mem_cell hg h).mp hi
  rcases Nat.eq_zero_or_pos p.column with hzero | hpos
  · obtain ⟨hnext, heq⟩ := target?_of_zero hg h hzero
    rw [heq, Option.some.injEq, Prod.mk.injEq] at htarget
    obtain ⟨rfl, rfl⟩ := htarget
    exact ⟨hnext, hsolved.canForce_of_zero hrow hlevel (hzero ▸ hfirst) hnext⟩
  · rw [Maze.target?_of_pos hpos, Option.some.injEq, Prod.mk.injEq] at htarget
    obtain ⟨rfl, rfl⟩ := htarget
    exact ⟨hrow, hsolved.canForce_of_pos hrow hlevel hfirst hpos⟩

section Live

variable (ht : g.TwoPlayer) (hsolved : g.Solved)
  (hlower : ∀ v ∈ g.level item.node.rank, v ∈ g.trans →
    sp.next v ∈ g.below item.node.rank → sp.next v ∈ lower)

include hlower

/-- A step of the game that lands is to a cell or to the escape. -/
theorem mem_target_of_lands {row top w : Nat} (hrow : row < g.numRows)
    (hw : w ∈ g.level item.node.rank) (htrans : w ∈ g.trans)
    (hdigit : sp.digit (sp.next w) g.marker = row)
    (hlands : g.Lands item.node.rank row top (sp.next w)) :
    sp.next w ∈ (item.maze g lower).reach row top ∪ (item.maze g lower).escape := by
  rw [StateSet.mem_union]
  by_cases hcand : sp.next w ∈ (item.attractor g lower).candidates
  · exact Or.inr (StateSet.mem_union.mpr (Or.inl hcand))
  · rcases hlands with hbelow | ⟨hlevel, column, hcolumn, hfirst⟩
    · exact Or.inr (StateSet.mem_union.mpr (Or.inr (hlower w hw htrans hbelow)))
    · exact Or.inl (Maze.mem_reach.mpr
        ⟨column, hcolumn, (mem_cell hg h).mpr ⟨hrow, hlevel, hfirst, hcand, hdigit⟩⟩)

include ht hsolved

/-- **The maze of a solved rank is live.** -/
theorem live : (item.maze g lower).Live g where
  exists_target := by
    intro p _
    rcases Nat.eq_zero_or_pos p.column with hzero | hpos
    · exact ⟨_, _, (target?_of_zero hg h hzero).2⟩
    · exact ⟨_, _, Maze.target?_of_pos hpos⟩
  forced := by
    intro p row top i hi htarget
    obtain ⟨hrow, hforce⟩ := canForce_of_target? hg h hsolved hi htarget
    obtain ⟨v, henv, hvi, hentering, hall⟩ := hforce.exists_entering hg ht hrow
      fun j k hj hk hjk ↦ ht.toOfStates.lands_of_bare_eq hj hk hjk
    refine ⟨v, hvi, ?_, hentering⟩
    refine (Game.mem_forcing ((fits_maze hg ht.toOfStates h).current_target row top)).mpr
      ⟨henv, fun w hw hvw ↦ ?_⟩
    obtain ⟨hdigit, hlands⟩ := hall w hw hvw
    -- an answer is a step of the game from the same state
    have htrans : w ∈ g.trans :=
      Game.mem_trans.mpr ⟨ht.answerFree_envTrans v henv w (StateSet.lt_size hw) hvw, hw⟩
    have hlevel : w ∈ g.level item.node.rank :=
      ((ht.toOfStates.untagged_level _).current.mem_iff_of_now_eq (StateSet.lt_size hi)
        (StateSet.lt_size hw) (hvi.symm.trans hvw.now_eq)).mp ((mem_cell hg h).mp hi).2.1
    exact mem_target_of_lands hg h hlower hrow hlevel htrans hdigit hlands
  unforced := by
    rintro v ⟨row, column, hv⟩ hforce
    obtain ⟨-, hlevel, -, hcand, -⟩ := (mem_cell hg h).mp hv
    have hescape : (item.maze g lower).escape
        = lower ∪ (g.attractor item.node.states lower).candidates :=
      StateSet.ext_mem fun i ↦ by
        rw [maze, StateSet.mem_union, StateSet.mem_union, or_comm]
        rfl
    rw [hescape] at hforce
    exact hcand (Game.mem_candidates_of_forcing (h.states_eq ▸ hlevel) hforce)

/-- No walk through the maze of a solved rank breaks the tracing off. -/
theorem violation_eq_none : (item.split g lower).tracing.violation = none := by
  have hm := fits_maze hg ht.toOfStates h
  exact Maze.violation_trace hg hm (commits hg ht.toOfStates h) (fits_seeds hg ht.toOfStates h)
    fun inner seed hk hseed hne _ ↦ Maze.violation?_walk hg hm (live hg h ht hsolved hlower)
      ht.answerFree_envTrans hk hseed hne

end Live

end Item.Ready

/-! ## The decomposition -/

namespace Decomposition

variable {ranking : Ranking sp} {o : Options} (hg : g.Shaped) (ht : g.TwoPlayer)
  (hsolved : g.Solved) (hr : g.ranking? = some ranking)

include hg ht hsolved hr

theorem violation_eq_none {item : Item sp} (hnode : item.node ∈ ranking.nodes)
    (hready : item.Ready g (lower ranking item.node)) :
    (item.split g (lower ranking item.node)).tracing.violation = none :=
  hready.violation_eq_none hg ht hsolved fun _ hv htrans hbelow ↦
    Ranking.next_mem_lower hg hr hnode (hready.states_eq ▸ hv) htrans hbelow

/-- **All walks through a rank close.** -/
theorem closed_of_mem_walks {item : Item sp} (hnode : item.node ∈ ranking.nodes)
    (hready : item.Ready g (lower ranking item.node)) {w : Walk sp}
    (hw : w ∈ (item.split g (lower ranking item.node)).tracing.walks) :
    ∃ start, w.ending = .closed start :=
  Maze.closed_trace (violation_eq_none hg ht hsolved hr hnode hready) w hw

/-- **All ranks of a solved game are decomposed.** -/
theorem exists_decompose (ho : o.assumptionGraphs = false) :
    ∃ d, g.decompose o ranking = .ok d := by
  refine exists_run hg ht.toOfStates hr (fun item hnode hready ↦ ?_)
    (sound_start hg ht.toOfStates hr).1
  refine ⟨violation_eq_none hg ht hsolved hr hnode hready, .cycle none, ?_⟩
  rw [cycleBody, ho, Bool.false_and, if_neg Bool.false_ne_true]

end Decomposition

end JusticeViolation

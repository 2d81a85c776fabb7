import JusticeViolation.Progress
import JusticeViolation.Proofs.Ranking

/-!
# Cells and start points, by their members

A state lies in a cell of its rank if the layer of the cell is the first of its row that holds it.
So the cells of one row are disjoint, and if the layers cover the rank, so do they.

Start points record what awaits an item: which states, and which nodes lead there. Adding start
points forgets nothing, and start points never leave their cells.
-/

namespace JusticeViolation

variable {sp : Space}

/-- The cell of an address; none if there is no such address. -/
def cellAt (cells : List (List (StateSet sp))) (row column : Nat) : StateSet sp :=
  (cells.getD row []).getD column ∅

theorem column_lt_of_mem_cellAt {cells : List (List (StateSet sp))} {row column i : Nat}
    (hi : i ∈ cellAt cells row column) : column < (cells.getD row []).length := by
  by_contra hc
  rw [cellAt, List.getD_eq_default _ _ (Nat.not_lt.mp hc)] at hi
  exact StateSet.not_mem_empty i hi

theorem row_lt_of_mem_cellAt {cells : List (List (StateSet sp))} {row column i : Nat}
    (hi : i ∈ cellAt cells row column) : row < cells.length := by
  by_contra hr
  rw [cellAt, List.getD_eq_default _ _ (Nat.not_lt.mp hr), List.getD_nil] at hi
  exact StateSet.not_mem_empty i hi

theorem current_cellAt {cells : List (List (StateSet sp))}
    (h : ∀ row ∈ cells, ∀ s ∈ row, s.Current) (row column : Nat) :
    (cellAt cells row column).Current := by
  rcases Nat.lt_or_ge row cells.length with hrow | hrow
  · rw [cellAt, List.getD_eq_getElem _ _ hrow]
    rcases Nat.lt_or_ge column cells[row].length with hcolumn | hcolumn
    · rw [List.getD_eq_getElem _ _ hcolumn]
      exact h _ (List.getElem_mem hrow) _ (List.getElem_mem hcolumn)
    · rw [List.getD_eq_default _ _ hcolumn]
      exact .empty _
  · rw [cellAt, List.getD_eq_default _ _ hrow, List.getD_nil]
    exact .empty _

namespace StateSet

theorem firstMet_eq (states seen : StateSet sp) (layers : List (StateSet sp)) :
    states.firstMet seen layers = (increments seen layers).map (· ∩ states) := by
  induction layers generalizing seen with
  | nil => rfl
  | cons layer layers ih => rw [firstMet, ih, increments, List.map_cons]

theorem length_firstMet (states seen : StateSet sp) (layers : List (StateSet sp)) :
    (states.firstMet seen layers).length = layers.length := by
  rw [firstMet_eq, List.length_map, length_increments]

theorem mem_getD_firstMet {states : StateSet sp} {layers : List (StateSet sp)} {k i : Nat} :
    i ∈ (states.firstMet ∅ layers).getD k ∅ ↔
      i ∈ states ∧ i ∈ layers.getD k ∅ ∧ ∀ j, j < k → i ∉ layers.getD j ∅ := by
  have hempty : (∅ : StateSet sp) ∩ states = ∅ :=
    ext_mem fun j ↦ iff_of_false (fun hj ↦ not_mem_empty j (mem_inter.mp hj).1) (not_mem_empty j)
  have hmap : (states.firstMet ∅ layers).getD k ∅ = (increments ∅ layers).getD k ∅ ∩ states := by
    rw [firstMet_eq, ← List.getD_map _ _ (· ∩ states), hempty]
  rw [hmap, mem_inter, mem_getD_increments, and_iff_right (not_mem_empty i), and_comm]

end StateSet

namespace Game

variable {g : Game sp}

theorem getD_cells (r row : Nat) (states : StateSet sp) :
    (g.cells r states).getD row [] = states.firstMet ∅ (g.layers r row) := by
  rw [cells, layers, ← List.getD_map _ _ (states.firstMet ∅)]
  rfl

theorem mem_cells {r row column i : Nat} {states : StateSet sp} :
    i ∈ cellAt (g.cells r states) row column ↔ i ∈ states ∧ g.FirstIn r row column i := by
  rw [cellAt, getD_cells, StateSet.mem_getD_firstMet]
  rfl

theorem Shaped.length_cells (h : g.Shaped) {r : Nat} (hr : r < g.numRanks)
    (states : StateSet sp) : (g.cells r states).length = g.numRows := by
  have hr' : r < g.progress.length := by rw [h.length_progress]; exact hr
  rw [cells, List.length_map, List.getD_eq_getElem _ _ hr']
  exact h.length_matrix _ (List.getElem_mem hr')

theorem length_getD_cells (r row : Nat) (states : StateSet sp) :
    ((g.cells r states).getD row []).length = (g.layers r row).length := by
  rw [getD_cells, StateSet.length_firstMet]

end Game

/-! ## Start points -/

namespace StartPoint

variable {row column source : Nat} {states : StateSet sp} {ps : List (StartPoint sp)}

/-- What an added start point is: a new one, or an old one to which states were added. -/
theorem forall_add {P : StartPoint sp → Prop} (hnew : P ⟨row, column, states, [source]⟩)
    (hmore : ∀ p, P p → p.row = row → p.column = column →
      P ⟨row, column, p.states ∪ states, insertAscending source p.sources⟩)
    (hold : ∀ p ∈ ps, P p) : ∀ p ∈ add row column states source ps, P p := by
  induction ps with
  | nil =>
    intro p hp
    rw [add, List.mem_singleton] at hp
    rwa [hp]
  | cons q ps ih =>
    have hq : P q := hold q List.mem_cons_self
    have hps : ∀ p ∈ ps, P p := fun p hp ↦ hold p (List.mem_cons_of_mem q hp)
    intro p hp
    rw [add] at hp
    split at hp
    · rename_i heq
      rcases List.mem_cons.mp hp with rfl | hp
      · exact hmore q hq heq.1 heq.2
      · exact hps p hp
    · split at hp
      · rcases List.mem_cons.mp hp with rfl | hp
        · exact hnew
        · exact hold p hp
      · rcases List.mem_cons.mp hp with rfl | hp
        · exact hq
        · exact ih hps p hp

theorem exists_add_of_mem (row column source : Nat) (states : StateSet sp) {p : StartPoint sp}
    (hp : p ∈ ps) :
    ∃ q ∈ add row column states source ps,
      (∀ id ∈ p.sources, id ∈ q.sources) ∧ ∀ i ∈ p.states, i ∈ q.states := by
  induction ps with
  | nil => exact absurd hp List.not_mem_nil
  | cons r ps ih =>
    rw [add]
    split
    · rcases List.mem_cons.mp hp with rfl | hp
      · exact ⟨_, List.mem_cons_self, fun id hid ↦ mem_insertAscending.mpr (Or.inr hid),
          fun i hi ↦ StateSet.mem_union.mpr (Or.inl hi)⟩
      · exact ⟨p, List.mem_cons_of_mem _ hp, fun _ hid ↦ hid, fun _ hi ↦ hi⟩
    · split
      · exact ⟨p, List.mem_cons_of_mem _ hp, fun _ hid ↦ hid, fun _ hi ↦ hi⟩
      · rcases List.mem_cons.mp hp with rfl | hp
        · exact ⟨p, List.mem_cons_self, fun _ hid ↦ hid, fun _ hi ↦ hi⟩
        · obtain ⟨q, hq, hpq⟩ := ih hp
          exact ⟨q, List.mem_cons_of_mem _ hq, hpq⟩

theorem exists_add_new (row column source : Nat) (states : StateSet sp)
    (ps : List (StartPoint sp)) :
    ∃ q ∈ add row column states source ps, source ∈ q.sources ∧ ∀ i ∈ states, i ∈ q.states := by
  induction ps with
  | nil => exact ⟨_, List.mem_cons_self, List.mem_singleton_self source, fun _ hi ↦ hi⟩
  | cons r ps ih =>
    rw [add]
    split
    · exact ⟨_, List.mem_cons_self, mem_insertAscending.mpr (Or.inl rfl),
        fun i hi ↦ StateSet.mem_union.mpr (Or.inr hi)⟩
    · split
      · exact ⟨_, List.mem_cons_self, List.mem_singleton_self source, fun _ hi ↦ hi⟩
      · obtain ⟨q, hq, hnew⟩ := ih
        exact ⟨q, List.mem_cons_of_mem _ hq, hnew⟩

end StartPoint

/-! ## Items -/

namespace Item

variable {g : Game sp} {item : Item sp}

/-- The state `i` awaits an item, reached from the node `id`. -/
def Awaits (item : Item sp) (id i : Nat) : Prop :=
  ∃ p ∈ item.starts, id ∈ p.sources ∧ i ∈ p.states

/-- An item holds the cells of its rank, and its start points lie in these. -/
structure Fits (g : Game sp) (item : Item sp) : Prop where
  states_eq : item.node.states = g.level item.node.rank
  cells_eq : item.cells = g.cells item.node.rank item.node.states
  untagged_start : ∀ p ∈ item.starts, p.states.Untagged g.marker
  start_subset : ∀ p ∈ item.starts, ∀ i ∈ p.states, i ∈ cellAt item.cells p.row p.column

theorem Fits.mem_cell (h : item.Fits g) {row column i : Nat} :
    i ∈ cellAt item.cells row column ↔
      i ∈ g.level item.node.rank ∧ g.FirstIn item.node.rank row column i := by
  rw [h.cells_eq, Game.mem_cells, h.states_eq]

/-- What awaits an item is of its level. -/
theorem Fits.level_of_awaits (h : item.Fits g) {id i : Nat} (hi : item.Awaits id i) :
    i ∈ g.level item.node.rank := by
  obtain ⟨p, hp, -, hip⟩ := hi
  exact (h.mem_cell.mp (h.start_subset p hp i hip)).1

theorem mem_addressed {row column : Nat} {cell : StateSet sp} :
    (row, column, cell) ∈ item.addressed ↔
      column < (item.cells.getD row []).length ∧ cell = cellAt item.cells row column := by
  rw [addressed, List.mem_flatMap]
  constructor
  · rintro ⟨⟨cells, row'⟩, hcells, hcell⟩
    obtain ⟨⟨cell', column'⟩, hmem, heq⟩ := List.mem_map.mp hcell
    rw [List.mk_mem_zipIdx_iff_getElem?] at hcells hmem
    simp only [Prod.mk.injEq] at heq
    obtain ⟨rfl, rfl, rfl⟩ := heq
    have hrow : item.cells.getD row' [] = cells := by
      rw [List.getD_eq_getElem?_getD, hcells, Option.getD_some]
    rw [cellAt, hrow, List.getD_eq_getElem?_getD, hmem, Option.getD_some, and_iff_left rfl]
    exact (List.getElem?_eq_some_iff.mp hmem).1
  · rintro ⟨hcolumn, rfl⟩
    have hrow : item.cells[row]? = some (item.cells.getD row []) := by
      rw [List.getD_eq_getElem?_getD] at hcolumn ⊢
      cases hc : item.cells[row]? with
      | none =>
        rw [hc] at hcolumn
        exact absurd hcolumn (Nat.not_lt_zero _)
      | some cells => rfl
    refine ⟨(item.cells.getD row [], row), List.mk_mem_zipIdx_iff_getElem?.mpr hrow, ?_⟩
    refine List.mem_map.mpr ⟨(cellAt item.cells row column, column), ?_, rfl⟩
    rw [List.mk_mem_zipIdx_iff_getElem?, cellAt, List.getD_eq_getElem _ _ hcolumn]
    exact List.getElem?_eq_getElem hcolumn

theorem mem_parts {states : StateSet sp} {row column : Nat} {part : StateSet sp} :
    (row, column, part) ∈ item.parts states ↔
      part = states ∩ cellAt item.cells row column ∧ ∃ i, i ∈ part := by
  rw [parts, List.mem_filter, List.mem_map, Bool.not_eq_true', StateSet.isEmpty_eq_false_iff]
  refine and_congr_left fun hne ↦ ?_
  constructor
  · rintro ⟨⟨row', column', cell⟩, hcell, heq⟩
    simp only [Prod.mk.injEq] at heq
    obtain ⟨rfl, rfl, rfl⟩ := heq
    rw [(mem_addressed.mp hcell).2]
  · rintro rfl
    obtain ⟨i, hi⟩ := hne
    exact ⟨(row, column, cellAt item.cells row column), mem_addressed.mpr
      ⟨column_lt_of_mem_cellAt (StateSet.mem_inter.mp hi).2, rfl⟩, rfl⟩

theorem mem_sources {id : Nat} : id ∈ item.sources ↔ ∃ p ∈ item.starts, id ∈ p.sources := by
  rw [sources, mem_ascending, List.mem_flatMap]

/-! ## Adding start points -/

private theorem awaits_fold {id i source : Nat} {starts : List (Nat × Nat × StateSet sp)}
    {ps : List (StartPoint sp)}
    (h : (∃ p ∈ ps, id ∈ p.sources ∧ i ∈ p.states) ∨
      id = source ∧ ∃ p ∈ starts, i ∈ p.2.2) :
    ∃ p ∈ starts.foldl (fun ps (row, column, states) ↦
      StartPoint.add row column states source ps) ps, id ∈ p.sources ∧ i ∈ p.states := by
  induction starts generalizing ps with
  | nil =>
    rcases h with h | ⟨-, p, hp, -⟩
    · exact h
    · exact absurd hp List.not_mem_nil
  | cons s starts ih =>
    obtain ⟨row, column, states⟩ := s
    rw [List.foldl_cons]
    refine ih ?_
    rcases h with ⟨p, hp, hid, hi⟩ | ⟨rfl, p, hp, hi⟩
    · obtain ⟨q, hq, hsources, hstates⟩ :=
        StartPoint.exists_add_of_mem row column source states hp
      exact Or.inl ⟨q, hq, hsources id hid, hstates i hi⟩
    · rcases List.mem_cons.mp hp with rfl | hp
      · obtain ⟨q, hq, hsource, hstates⟩ :=
          StartPoint.exists_add_new row column id states ps
        exact Or.inl ⟨q, hq, hsource, hstates i hi⟩
      · exact Or.inr ⟨rfl, p, hp, hi⟩

theorem awaits_addStarts {id i source : Nat} {starts : List (Nat × Nat × StateSet sp)}
    (h : item.Awaits id i) : (item.addStarts starts source).Awaits id i :=
  awaits_fold (Or.inl h)

theorem awaits_addStarts_of_mem {i source : Nat} {starts : List (Nat × Nat × StateSet sp)}
    {p : Nat × Nat × StateSet sp} (hp : p ∈ starts) (hi : i ∈ p.2.2) :
    (item.addStarts starts source).Awaits source i :=
  awaits_fold (Or.inr ⟨rfl, p, hp, hi⟩)

/-- What the start points of an item are when some are added. -/
theorem forall_addStarts {P : StartPoint sp → Prop} {source : Nat}
    {starts : List (Nat × Nat × StateSet sp)}
    (hnew : ∀ p ∈ starts, P ⟨p.1, p.2.1, p.2.2, [source]⟩)
    (hmore : ∀ p ∈ starts, ∀ q, P q → q.row = p.1 → q.column = p.2.1 →
      P ⟨p.1, p.2.1, q.states ∪ p.2.2, insertAscending source q.sources⟩)
    (hold : ∀ p ∈ item.starts, P p) : ∀ p ∈ (item.addStarts starts source).starts, P p := by
  have key : ∀ ps : List (StartPoint sp), (∀ p ∈ ps, P p) →
      ∀ p ∈ starts.foldl (fun ps (row, column, states) ↦
        StartPoint.add row column states source ps) ps, P p := by
    induction starts with
    | nil => exact fun ps hps ↦ hps
    | cons s starts ih =>
      intro ps hps
      rw [List.foldl_cons]
      exact ih (fun p hp ↦ hnew p (List.mem_cons_of_mem _ hp))
        (fun p hp ↦ hmore p (List.mem_cons_of_mem _ hp)) _
        (StartPoint.forall_add (hnew s List.mem_cons_self) (hmore s List.mem_cons_self) hps)
  exact key item.starts hold

theorem Fits.addStarts (h : item.Fits g) {source : Nat}
    {starts : List (Nat × Nat × StateSet sp)}
    (hs : ∀ p ∈ starts, p.2.2.Untagged g.marker ∧ ∀ i ∈ p.2.2, i ∈ cellAt item.cells p.1 p.2.1) :
    (item.addStarts starts source).Fits g := by
  have hall : ∀ p ∈ (item.addStarts starts source).starts, p.states.Untagged g.marker ∧
      ∀ i ∈ p.states, i ∈ cellAt item.cells p.row p.column := by
    refine forall_addStarts hs (fun p hp q hq hrow hcolumn ↦ ?_)
      fun p hp ↦ ⟨h.untagged_start p hp, h.start_subset p hp⟩
    obtain ⟨huntagged, hcell⟩ := hs p hp
    refine ⟨hq.1.union huntagged, fun i hi ↦ ?_⟩
    rcases StateSet.mem_union.mp hi with hi | hi
    · exact hrow ▸ hcolumn ▸ hq.2 i hi
    · exact hcell i hi
  exact {
    states_eq := h.states_eq
    cells_eq := h.cells_eq
    untagged_start := fun p hp ↦ (hall p hp).1
    start_subset := fun p hp ↦ (hall p hp).2 }

section Offer

variable (ho : g.OfStates) (h : item.Fits g)

include ho h

theorem untagged_cell (row column : Nat) : (cellAt item.cells row column).Untagged g.marker := by
  intro i j hi hj hij
  have hlayer : ∀ k, (i ∈ g.layer item.node.rank row k ↔ j ∈ g.layer item.node.rank row k) :=
    fun k ↦ ho.untagged_layer _ row k i j hi hj hij
  rw [h.mem_cell, h.mem_cell, ho.untagged_level _ i j hi hj hij]
  refine and_congr_right fun _ ↦ and_congr (hlayer column) ?_
  exact forall_congr' fun k ↦ imp_congr_right fun _ ↦ not_congr (hlayer k)

theorem Fits.offer {states : StateSet sp} (hs : states.Untagged g.marker) (source : Nat) :
    (item.offer states source).Fits g := by
  refine h.addStarts fun p hp ↦ ?_
  obtain ⟨row, column, part⟩ := p
  obtain ⟨rfl, -⟩ := mem_parts.mp hp
  exact ⟨hs.inter (untagged_cell ho h row column), fun i hi ↦ (StateSet.mem_inter.mp hi).2⟩

omit ho in
/-- If the layers cover the rank, every state of it that is offered awaits the item. -/
theorem awaits_offer (hg : g.Shaped) (hcover : g.RowsCover) {states : StateSet sp} {source i : Nat}
    (hi : i ∈ states) (hl : i ∈ g.level item.node.rank) :
    (item.offer states source).Awaits source i := by
  obtain ⟨hrank, hbelow⟩ := Game.mem_level.mp hl
  obtain ⟨k, hk⟩ := hcover item.node.rank 0 i (Game.lt_numRanks_of_mem_rank hrank)
    hg.numRows_pos hrank hbelow
  obtain ⟨column, -, hfirst⟩ := Game.exists_firstIn hk
  have hmem : i ∈ states ∩ cellAt item.cells 0 column :=
    StateSet.mem_inter.mpr ⟨hi, h.mem_cell.mpr ⟨hl, hfirst⟩⟩
  exact awaits_addStarts_of_mem (p := (0, column, states ∩ cellAt item.cells 0 column))
    (mem_parts.mpr ⟨rfl, i, hmem⟩) hmem

end Offer

end Item

end JusticeViolation

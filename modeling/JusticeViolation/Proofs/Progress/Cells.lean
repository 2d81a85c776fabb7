import JusticeViolation.Proofs.Progress
import JusticeViolation.Proofs.Ranking.Partition

/-!
# Cells as a partition by the first layer

The cells of a row are made in one pass over its layers. From each layer is taken what has been seen
before it, and only then what lies outside the rank, while the whole layer counts as seen. So a cell
holds nothing that an earlier layer holds, in the rank or not, however the layers overlap and how
often one is repeated. The cells of a row are therefore disjoint, and together they hold what the
rank and the layers have in common.

A layer counts only for what the layers before it do not hold. It may be exchanged for its union
with these, and the cells stay the same.
-/

namespace JusticeViolation

variable {sp : Space}

namespace StateSet

variable {states seen : StateSet sp} {layers : List (StateSet sp)}

/-- The cells of a row hold what its layers hold of the rank and what has not been seen before. -/
theorem exists_mem_firstMet_iff {i : Nat} :
    (∃ cell ∈ states.firstMet seen layers, i ∈ cell) ↔
      i ∈ states ∧ i ∉ seen ∧ ∃ layer ∈ layers, i ∈ layer := by
  induction layers generalizing seen with
  | nil => simp [firstMet]
  | cons layer layers ih =>
    rw [firstMet, List.exists_mem_cons_iff, ih, List.exists_mem_cons_iff, mem_inter, mem_sdiff,
      mem_union]
    -- what the layer holds is met here, or it has been seen
    tauto

/-- The cells of a row are disjoint. -/
theorem pairwise_firstMet (states seen : StateSet sp) (layers : List (StateSet sp)) :
    (states.firstMet seen layers).Pairwise fun s t ↦ s ∩ t = ∅ := by
  induction layers generalizing seen with
  | nil => exact .nil
  | cons layer layers ih =>
    refine List.pairwise_cons.mpr ⟨fun cell hcell ↦ ext_mem fun i ↦ ?_, ih (seen ∪ layer)⟩
    refine iff_of_false (fun hi ↦ ?_) (not_mem_empty i)
    obtain ⟨hhere, hlater⟩ := mem_inter.mp hi
    -- what a later cell holds has not been seen, and this layer has
    obtain ⟨-, hnew, -⟩ := exists_mem_firstMet_iff.mp ⟨cell, hcell, hlater⟩
    exact hnew (mem_union.mpr (Or.inr (mem_sdiff.mp (mem_inter.mp hhere).1).1))

theorem unionAll_firstMet (states : StateSet sp) (layers : List (StateSet sp)) :
    unionAll (states.firstMet ∅ layers) = states ∩ unionAll layers :=
  ext_mem fun i ↦ by
    rw [mem_unionAll, exists_mem_firstMet_iff, and_iff_right (not_mem_empty i), mem_inter,
      mem_unionAll]

theorem firstMet_accumulate (states : StateSet sp) (layers : List (StateSet sp)) :
    states.firstMet ∅ (accumulate layers) = states.firstMet ∅ layers := by
  rw [firstMet_eq, increments_accumulate, firstMet_eq]

end StateSet

namespace Game

/-- The game in which the layers of the chosen rows hold the layers before them as well. A row is
chosen by its rank and its number. -/
def accumulateRows (g : Game sp) (chosen : Nat → Nat → Bool) : Game sp :=
  { g with progress := g.progress.mapIdx fun r matrix ↦ matrix.mapIdx fun row layers ↦
      if chosen r row then StateSet.accumulate layers else layers }

/-- **Running unions make the same cells.** -/
theorem cells_accumulateRows (g : Game sp) (chosen : Nat → Nat → Bool) (r : Nat)
    (states : StateSet sp) : (g.accumulateRows chosen).cells r states = g.cells r states := by
  have hrow : ∀ row (layers : List (StateSet sp)),
      states.firstMet ∅ (if chosen r row then StateSet.accumulate layers else layers) =
        states.firstMet ∅ layers := fun row layers ↦ by
    split
    · exact StateSet.firstMet_accumulate states layers
    · rfl
  rw [cells, cells, accumulateRows, List.getD_eq_getElem?_getD, List.getD_eq_getElem?_getD,
    List.getElem?_mapIdx]
  cases g.progress[r]? with
  | none => rfl
  | some matrix =>
    rw [Option.map_some, Option.getD_some, Option.getD_some]
    refine List.ext_getElem (by simp only [List.length_map, List.length_mapIdx]) fun row _ _ ↦ ?_
    rw [List.getElem_map, List.getElem_mapIdx, List.getElem_map]
    exact hrow row _

/-- **Cells are the partition by the first layer.** There is a cell for each layer of a row, and it
holds the states of the node for which this layer is the first of the row that holds them. The cells
of a row are disjoint, and together they hold what the layers hold of the node. Running unions in
place of the layers of some rows make the same cells. -/
theorem cells_exact (g : Game sp) (node : RankNode sp) :
    let cells := (g.item node).cells
    cells.length = (g.progress.getD node.rank []).length ∧
    (∀ row, (cells.getD row []).length = (g.layers node.rank row).length ∧
      (∀ column i, i ∈ cellAt cells row column ↔
        i ∈ node.states ∧ g.FirstIn node.rank row column i) ∧
      (cells.getD row []).Pairwise (fun s t ↦ s ∩ t = ∅) ∧
      .unionAll (cells.getD row []) = node.states ∩ .unionAll (g.layers node.rank row)) ∧
    ∀ chosen, ((g.accumulateRows chosen).item node).cells = cells := by
  intro cells
  have hrow : ∀ row, cells.getD row [] = node.states.firstMet ∅ (g.layers node.rank row) :=
    fun row ↦ getD_cells node.rank row node.states
  refine ⟨List.length_map _, fun row ↦ ⟨length_getD_cells _ _ _, fun _ _ ↦ mem_cells, ?_, ?_⟩,
    fun chosen ↦ cells_accumulateRows g chosen _ _⟩
  · rw [hrow]
    exact StateSet.pairwise_firstMet _ _ _
  · rw [hrow]
    exact StateSet.unionAll_firstMet _ _

end Game

end JusticeViolation

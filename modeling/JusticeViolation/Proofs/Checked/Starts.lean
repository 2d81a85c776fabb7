import JusticeViolation.Proofs.Checked.Split
import JusticeViolation.Proofs.Decomposition.Queue

/-!
# Start points in range

Start points are found by going through the rows and columns of an item, so they are those of cells.
Whatever is added to an item in this way, its start points have cells; and this is all that has to
be known of the items in a queue for their ranks to be split in range.
-/

namespace JusticeViolation

open Checked

variable {sp : Space}

/-! ## The cells of an item -/

namespace Item

variable (item : Item sp)

/-- The cells with their addresses, row by row. -/
def checkedAddressed : Checked (List (Nat × Nat × StateSet sp)) := do
  let rows ← (List.range item.cells.length).mapM fun row ↦ do
    let cells ← lookup item.cells row
    (List.range cells.length).mapM fun column ↦ do
      let cells ← lookup item.cells row
      let cell ← lookup cells column
      return (row, column, cell)
  return rows.flatten

/-- What the cells hold of `states`, where it is not empty. -/
def checkedParts (states : StateSet sp) : Checked (List (Nat × Nat × StateSet sp)) := do
  let addressed ← item.checkedAddressed
  return (addressed.map fun p ↦ (p.1, p.2.1, states ∩ p.2.2)).filter fun p ↦ !p.2.2.isEmpty

/-- Make `states` start points of every cell that they meet. -/
def checkedOffer (states : StateSet sp) (source : Nat) : Checked (Item sp) := do
  let parts ← item.checkedParts states
  return item.addStarts parts source

variable {item}

theorem checkedAddressed_eq : item.checkedAddressed = .ok item.addressed := by
  have hrow : ∀ row ∈ List.range item.cells.length, (do
      let cells ← lookup item.cells row
      (List.range cells.length).mapM fun column ↦ do
        let cells ← lookup item.cells row
        let cell ← lookup cells column
        return (row, column, cell) : Checked (List (Nat × Nat × StateSet sp))) =
      .ok ((item.cells.getD row []).zipIdx.map fun c ↦ (row, c.2, c.1)) := fun row hrow ↦ by
    have hlookup := lookup_getD (List.mem_range.mp hrow) []
    rw [hlookup, ok_bind, map_zipIdx_eq _ _ ∅]
    refine mapM_eq_ok fun column hcolumn ↦ ?_
    rw [ok_bind, lookup_getD (List.mem_range.mp hcolumn) ∅]
    rfl
  rw [checkedAddressed, mapM_eq_ok hrow, ok_bind, pure_eq_ok, addressed, List.flatMap_def,
    map_zipIdx_eq _ _ []]

theorem checkedParts_eq (states : StateSet sp) :
    item.checkedParts states = .ok (item.parts states) := by
  rw [checkedParts, checkedAddressed_eq]
  rfl

theorem checkedOffer_eq (states : StateSet sp) (source : Nat) :
    item.checkedOffer states source = .ok (item.offer states source) := by
  rw [checkedOffer, checkedParts_eq]
  rfl

/-! ## Start points have cells -/

theorem addressed_item (g : Game sp) (node : RankNode sp) : (g.item node).Addressed :=
  fun _ hp ↦ absurd hp List.not_mem_nil

/-- Start points that are added to cells have cells. -/
theorem Addressed.addStarts (h : item.Addressed) {source : Nat} {states : StateSet sp}
    {starts : List (Nat × Nat × StateSet sp)}
    (hs : ∀ p ∈ starts, ∃ q ∈ item.parts states, q.1 = p.1 ∧ q.2.1 = p.2.1) :
    (item.addStarts starts source).Addressed := by
  have hcell : ∀ p ∈ starts, p.1 < item.cells.length ∧
      p.2.1 < (item.cells.getD p.1 []).length := fun p hp ↦ by
    obtain ⟨⟨row, column, part⟩, hq, hrow, hcolumn⟩ := hs p hp
    obtain ⟨rfl, i, hi⟩ := mem_parts.mp hq
    have hmem := (StateSet.mem_inter.mp hi).2
    exact ⟨hrow ▸ row_lt_of_mem_cellAt hmem, hrow ▸ hcolumn ▸ column_lt_of_mem_cellAt hmem⟩
  exact forall_addStarts hcell (fun p hp _ _ _ _ ↦ hcell p hp) h

theorem Addressed.offer (h : item.Addressed) (states : StateSet sp) (source : Nat) :
    (item.offer states source).Addressed := h.addStarts fun p hp ↦ ⟨p, hp, rfl, rfl⟩

end Item

/-! ## The queue -/

namespace Decomposition

/-- Change the item of a rank in a queue, which is `fresh` if there is none. -/
def checkedChangeItem (fresh : Item sp) (change : Item sp → Checked (Item sp)) :
    List (Item sp) → Checked (List (Item sp))
  | [] => do
    let changed ← change fresh
    return [changed]
  | item :: items =>
    if item.node.rank < fresh.node.rank then do
      let changed ← change fresh
      return changed :: item :: items
    else if item.node.rank = fresh.node.rank then do
      let changed ← change item
      return changed :: items
    else do
      let items ← checkedChangeItem fresh change items
      return item :: items

variable (g : Game sp) (d : Decomposition sp)

/-- Change the item of a rank. -/
def checkedEnqueue (node : RankNode sp) (change : Item sp → Checked (Item sp)) :
    Checked (Decomposition sp) := do
  let queue ← checkedChangeItem (g.item node) change d.queue
  return { d with queue }

/-- The initial states in each cell of an item, fixed to one move of the environment. -/
def checkedInitialStarts (item : Item sp) : Checked (List (Nat × Nat × StateSet sp)) := do
  let parts ← item.checkedParts g.initial
  return parts.map fun p ↦
    match p.2.2.sampleCube? g.envIds with
    | none => p
    | some cube => (p.1, p.2.1, p.2.2 ∩ cube)

/-- The decomposition that begins with the marker of a ranking graph. -/
def checkedStart (ranking : Ranking sp) : Checked (Decomposition sp) :=
  let initial : Node sp := ⟨Graph.initialId, none, g.initial, ∅, [], .initial⟩
  let d : Decomposition sp := ⟨Graph.empty.addNode initial, [], [], []⟩
  (ranking.entries.filterMap ranking.node?).foldlM (fun d node ↦
    d.checkedEnqueue g node fun item ↦ do
      let starts ← checkedInitialStarts g item
      return item.addStarts starts Graph.initialId) d

variable {g d}

theorem checkedChangeItem_eq {change : Item sp → Checked (Item sp)} {changed : Item sp → Item sp}
    (h : ∀ item, change item = .ok (changed item)) (fresh : Item sp) (items : List (Item sp)) :
    checkedChangeItem fresh change items = .ok (changeItem fresh changed items) := by
  induction items with
  | nil =>
    rw [checkedChangeItem, h]
    rfl
  | cons item items ih =>
    rw [checkedChangeItem, changeItem, h, h, ih]
    split
    · rfl
    · split <;> rfl

theorem checkedEnqueue_eq {change : Item sp → Checked (Item sp)} {changed : Item sp → Item sp}
    (h : ∀ item, change item = .ok (changed item)) (node : RankNode sp) :
    d.checkedEnqueue g node change = .ok (d.enqueue g node changed) := by
  rw [checkedEnqueue, checkedChangeItem_eq h]
  rfl

theorem checkedInitialStarts_eq (item : Item sp) :
    checkedInitialStarts g item = .ok (initialStarts g item) := by
  rw [checkedInitialStarts, Item.checkedParts_eq]
  rfl

/-- **The start is made in range.** -/
theorem checkedStart_eq (g : Game sp) (ranking : Ranking sp) :
    checkedStart g ranking = .ok (start g ranking) := by
  refine foldlM_eq_ok (fun d node _ ↦ checkedEnqueue_eq (fun item ↦ ?_) node) _
  rw [checkedInitialStarts_eq]
  rfl

/-- Initial states are added to cells that hold some of them. -/
theorem exists_part_of_mem_initialStarts {item : Item sp} {p : Nat × Nat × StateSet sp}
    (hp : p ∈ initialStarts g item) : ∃ q ∈ item.parts g.initial, q.1 = p.1 ∧ q.2.1 = p.2.1 := by
  obtain ⟨⟨row, column, part⟩, hq, rfl⟩ := List.mem_map.mp hp
  refine ⟨_, hq, ?_⟩
  dsimp only
  cases part.sampleCube? g.envIds <;> exact ⟨rfl, rfl⟩

end Decomposition

end JusticeViolation

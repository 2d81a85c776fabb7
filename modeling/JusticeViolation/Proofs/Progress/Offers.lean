import Mathlib.Data.List.Sort
import JusticeViolation.Proofs.Game.Solution
import JusticeViolation.Proofs.Progress

/-!
# Offers in any order

A rank that waits to be decomposed is offered what several nodes lead to, one offer after another,
and the start points of its cells grow. What they are in the end depends on the offers alone.
Whatever is said of a start point in terms of one state that it holds, of one node that leads to it,
or of nothing but its address, holds of an enlarged start point exactly if it holds of what it was
or of what was added: such a property is *additive*. So some start point has it after the offers
exactly if one of the parts offered had it, whenever that was.

Three additive properties describe a list of start points completely, as there is one for each
address, in the order of the addresses. That makes the lists that result from the same offers equal.
-/

namespace JusticeViolation

variable {sp : Space}

namespace StartPoint

variable {row column source : Nat} {states : StateSet sp} {ps qs : List (StartPoint sp)}

/-! ## Start points in order -/

/-- The cell of a start point. -/
def address (p : StartPoint sp) : Nat × Nat := (p.row, p.column)

/-- There is one start point for each cell that has any, in the order of the cells, and the nodes
that lead to one are listed in order. -/
structure Ordered (ps : List (StartPoint sp)) : Prop where
  sorted : ps.Pairwise fun p q ↦ pairLt p.address q.address = true
  ascending : ∀ p ∈ ps, p.sources.Pairwise (· < ·)

theorem Ordered.nil : Ordered ([] : List (StartPoint sp)) := ⟨.nil, by simp⟩

theorem pairwise_add (h : ps.Pairwise fun p q ↦ pairLt p.address q.address = true) :
    (add row column states source ps).Pairwise
      fun p q ↦ pairLt p.address q.address = true := by
  induction ps with
  | nil => exact List.pairwise_singleton _ _
  | cons first ps ih =>
    obtain ⟨hfirst, hps⟩ := List.pairwise_cons.mp h
    rw [add]
    split
    · rename_i heq
      refine List.pairwise_cons.mpr ⟨fun q hq ↦ ?_, hps⟩
      have hlt := hfirst q hq
      rwa [address, heq.1, heq.2] at hlt
    · rename_i hne
      split
      · rename_i hlt
        refine List.pairwise_cons.mpr ⟨List.forall_mem_cons.mpr ⟨hlt, fun q hq ↦ ?_⟩, h⟩
        have hfq := hfirst q hq
        simp only [address, pairLt_iff] at hlt hfq ⊢
        omega
      · rename_i hge
        refine List.pairwise_cons.mpr ⟨forall_add ?_ (fun q hq hrow hcolumn ↦ ?_) hfirst, ih hps⟩
        · simp only [address, pairLt_iff] at hge ⊢
          omega
        · change pairLt first.address (row, column) = true
          rw [← hrow, ← hcolumn]
          exact hq

theorem Ordered.add (h : Ordered ps) : Ordered (add row column states source ps) where
  sorted := pairwise_add h.sorted
  ascending := forall_add (List.pairwise_singleton _ _)
    (fun _ hp _ _ ↦ pairwise_insertAscending source hp) h.ascending

/-- There is one start point for each cell. -/
theorem Ordered.eq_of_address_eq (h : Ordered ps) {p q : StartPoint sp} (hp : p ∈ ps) (hq : q ∈ ps)
    (heq : p.address = q.address) : p = q := by
  refine List.inj_on_of_nodup_map (List.pairwise_map.mpr (h.sorted.imp fun hlt he ↦ ?_)) hp hq heq
  rw [he, pairLt_iff] at hlt
  omega

/-- What is said of some start point of a cell is said of the only one there. -/
theorem Ordered.exists_address_iff (h : Ordered ps) {p : StartPoint sp} (hp : p ∈ ps)
    (Q : StartPoint sp → Prop) : (∃ q ∈ ps, q.address = p.address ∧ Q q) ↔ Q p := by
  constructor
  · rintro ⟨q, hq, hqp, hQ⟩
    rwa [← h.eq_of_address_eq hq hp hqp]
  · exact fun hQ ↦ ⟨p, hp, rfl, hQ⟩

/-! ## Additive properties -/

/-- An enlarged start point has the property if it had it before, or if what is added has it. -/
def Additive (P : StartPoint sp → Prop) : Prop := ∀ row column s t sources source,
  P ⟨row, column, s ∪ t, insertAscending source sources⟩ ↔
    P ⟨row, column, s, sources⟩ ∨ P ⟨row, column, t, [source]⟩

theorem additive_address (cell : Nat × Nat) :
    Additive fun p : StartPoint sp ↦ p.address = cell := fun _ _ _ _ _ _ ↦ (or_self _).to_iff.symm

theorem additive_states (cell : Nat × Nat) (i : Nat) :
    Additive fun p : StartPoint sp ↦ p.address = cell ∧ i ∈ p.states := fun _ _ _ _ _ _ ↦ by
  simp only [address, StateSet.mem_union, and_or_left]

theorem additive_sources (cell : Nat × Nat) (id : Nat) :
    Additive fun p : StartPoint sp ↦ p.address = cell ∧ id ∈ p.sources := fun _ _ _ _ _ _ ↦ by
  simp only [address, mem_insertAscending, List.mem_singleton, and_or_left, or_comm]

/-- **One addition**: some start point has an additive property exactly if one had it before or what
is added has it. -/
theorem exists_mem_add_iff {P : StartPoint sp → Prop} (hP : Additive P) :
    (∃ p ∈ add row column states source ps, P p) ↔
      (∃ p ∈ ps, P p) ∨ P ⟨row, column, states, [source]⟩ := by
  induction ps with
  | nil => simp [add]
  | cons first ps ih =>
    rw [add]
    split
    · rename_i heq
      have hfirst := hP row column first.states states first.sources source
      rw [← heq.1, ← heq.2] at hfirst ⊢
      rw [List.exists_mem_cons_iff, hfirst, List.exists_mem_cons_iff, or_right_comm]
    · split
      · rw [List.exists_mem_cons_iff, or_comm]
      · rw [List.exists_mem_cons_iff, ih, List.exists_mem_cons_iff, or_assoc]

private theorem Ordered.mem_of_additive (hps : Ordered ps) (hqs : Ordered qs)
    (h : ∀ P : StartPoint sp → Prop, Additive P → ((∃ p ∈ ps, P p) ↔ ∃ q ∈ qs, P q))
    {p : StartPoint sp} (hp : p ∈ ps) : p ∈ qs := by
  obtain ⟨q, hq, hqp⟩ := (h _ (additive_address p.address)).mp ⟨p, hp, rfl⟩
  have honly : ∀ Q : StartPoint sp → Prop,
      Additive (fun r ↦ r.address = p.address ∧ Q r) → (Q p ↔ Q q) := fun Q hQ ↦ by
    rw [← hps.exists_address_iff hp Q, h _ hQ, ← hqp, hqs.exists_address_iff hq Q]
  have hstates : p.states = q.states :=
    StateSet.ext_mem fun i ↦ honly _ (additive_states p.address i)
  have hsources : p.sources = q.sources :=
    (hps.ascending p hp).eq_of_mem_iff (hqs.ascending q hq) fun id ↦
      honly _ (additive_sources p.address id)
  obtain ⟨hrow, hcolumn⟩ := Prod.mk.inj hqp
  have hpq : p = q := by
    cases p
    cases q
    exact (StartPoint.mk.injEq ..).mpr ⟨hrow.symm, hcolumn.symm, hstates, hsources⟩
  exact hpq ▸ hq

/-- Ordered start points of which the same can be said are the same. -/
theorem Ordered.ext (hps : Ordered ps) (hqs : Ordered qs)
    (h : ∀ P : StartPoint sp → Prop, Additive P → ((∃ p ∈ ps, P p) ↔ ∃ q ∈ qs, P q)) :
    ps = qs := by
  have : Std.Asymm fun p q : StartPoint sp ↦ pairLt p.address q.address = true :=
    ⟨fun p q hpq hqp ↦ by
      rw [pairLt_iff] at hpq hqp
      omega⟩
  exact hps.sorted.eq_of_mem_iff hqs.sorted fun p ↦
    ⟨hps.mem_of_additive hqs h, hqs.mem_of_additive hps fun P hP ↦ (h P hP).symm⟩

end StartPoint

namespace Item

variable {item : Item sp} {states : StateSet sp} {source : Nat}

/-! ## Offers that count -/

/-- An offer to one cell: it is counted if the cell holds some of the states, which are added. -/
def offerCell (states : StateSet sp) (source : Nat) (s : Item sp × Nat)
    (cell : Nat × Nat × StateSet sp) : Item sp × Nat :=
  let part := states ∩ cell.2.2
  if part.isEmpty then s
  else ({ s.1 with starts := StartPoint.add cell.1 cell.2.1 part source s.1.starts }, s.2 + 1)

/-- An offer to the cells one by one, and how many of them it meets. -/
def offerCounted (item : Item sp) (states : StateSet sp) (source : Nat) : Item sp × Nat :=
  item.addressed.foldl (offerCell states source) (item, 0)

/-- Offers one after another: what becomes of the item, and the count of each of them. -/
def offerAll (item : Item sp) : List (StateSet sp × Nat) → Item sp × List Nat
  | [] => (item, [])
  | (states, source) :: offers =>
    let (next, count) := item.offerCounted states source
    let (last, counts) := next.offerAll offers
    (last, count :: counts)

/-- An offer adds the parts of its states, and counts them. -/
theorem offerCounted_eq :
    item.offerCounted states source =
      (item.offer states source, (item.parts states).length) := by
  have key : ∀ (cells : List (Nat × Nat × StateSet sp)) (s : Item sp × Nat),
      let parts := (cells.map fun c ↦ (c.1, c.2.1, states ∩ c.2.2)).filter
        fun p ↦ !p.2.2.isEmpty
      cells.foldl (offerCell states source) s =
        (s.1.addStarts parts source, s.2 + parts.length) := by
    intro cells
    induction cells with
    | nil => exact fun _ ↦ rfl
    | cons cell cells ih =>
      intro s
      rw [List.foldl_cons, ih]
      cases he : (states ∩ cell.2.2).isEmpty with
      | true => simp [offerCell, he]
      | false => simp [offerCell, addStarts, he, Nat.add_assoc, Nat.add_comm 1]
  rw [offerCounted, key, Nat.zero_add]
  rfl

theorem offerAll_cons (offers : List (StateSet sp × Nat)) :
    item.offerAll ((states, source) :: offers) =
      (((item.offer states source).offerAll offers).1,
        (item.parts states).length :: ((item.offer states source).offerAll offers).2) := by
  rw [offerAll, offerCounted_eq]

theorem map_addressed : item.addressed.map (·.2.2) = item.cells.flatten := by
  have hrow : ∀ p : List (StateSet sp) × Nat,
      (p.1.zipIdx.map fun c ↦ (p.2, c.2, c.1)).map (·.2.2) = p.1 := fun p ↦ by
    rw [List.map_map]
    exact List.zipIdx_map_fst 0 p.1
  rw [addressed, List.map_flatMap]
  refine (List.flatMap_congr fun p _ ↦ hrow p).trans ?_
  rw [List.flatMap_def, List.zipIdx_map_fst]

/-- There are as many parts as there are cells that the states meet. -/
theorem length_parts :
    (item.parts states).length = item.cells.flatten.countP (states.meets ·) := by
  rw [parts, ← List.countP_eq_length_filter, List.countP_map, ← map_addressed, List.countP_map]
  rfl

/-! ## What the start points are in the end -/

section Offered

variable {starts : List (Nat × Nat × StateSet sp)} {offers : List (StateSet sp × Nat)}

theorem ordered_addStarts (h : StartPoint.Ordered item.starts) :
    StartPoint.Ordered (item.addStarts starts source).starts := by
  have key : ∀ ps : List (StartPoint sp), StartPoint.Ordered ps →
      StartPoint.Ordered
        (starts.foldl (fun ps a ↦ StartPoint.add a.1 a.2.1 a.2.2 source ps) ps) := by
    induction starts with
    | nil => exact fun _ hps ↦ hps
    | cons a starts ih => exact fun _ hps ↦ ih _ hps.add
  exact key _ h

theorem exists_mem_addStarts_iff {P : StartPoint sp → Prop} (hP : StartPoint.Additive P) :
    (∃ p ∈ (item.addStarts starts source).starts, P p) ↔
      (∃ p ∈ item.starts, P p) ∨ ∃ a ∈ starts, P ⟨a.1, a.2.1, a.2.2, [source]⟩ := by
  have key : ∀ ps : List (StartPoint sp),
      (∃ p ∈ starts.foldl (fun ps a ↦ StartPoint.add a.1 a.2.1 a.2.2 source ps) ps, P p) ↔
      (∃ p ∈ ps, P p) ∨ ∃ a ∈ starts, P ⟨a.1, a.2.1, a.2.2, [source]⟩ := by
    induction starts with
    | nil => simp
    | cons a starts ih =>
      intro ps
      rw [List.foldl_cons, ih, StartPoint.exists_mem_add_iff hP, List.exists_mem_cons_iff,
        or_assoc]
  exact key _

/-- **One offer**: a start point has an additive property afterwards exactly if one had it before or
the part of some cell that the states meet has it. -/
theorem exists_mem_offer_iff {P : StartPoint sp → Prop} (hP : StartPoint.Additive P) :
    (∃ p ∈ (item.offer states source).starts, P p) ↔
      (∃ p ∈ item.starts, P p) ∨ ∃ row column,
        states.meets (cellAt item.cells row column) = true ∧
          P ⟨row, column, states ∩ cellAt item.cells row column, [source]⟩ := by
  rw [offer, exists_mem_addStarts_iff hP]
  refine or_congr_right ⟨?_, ?_⟩
  · rintro ⟨⟨row, column, part⟩, hpart, hPp⟩
    obtain ⟨rfl, i, hi⟩ := mem_parts.mp hpart
    exact ⟨row, column, StateSet.meets_iff.mpr ⟨i, StateSet.mem_inter.mp hi⟩, hPp⟩
  · rintro ⟨row, column, hmeets, hPp⟩
    obtain ⟨i, hi⟩ := StateSet.meets_iff.mp hmeets
    exact ⟨(row, column, _), mem_parts.mpr ⟨rfl, i, StateSet.mem_inter.mpr hi⟩, hPp⟩

/-- Offers concern nothing but the start points. -/
theorem frame_offerAll (item : Item sp) (offers : List (StateSet sp × Nat)) :
    (item.offerAll offers).1.node = item.node ∧ (item.offerAll offers).1.cells = item.cells := by
  induction offers generalizing item with
  | nil => exact ⟨rfl, rfl⟩
  | cons o offers ih =>
    rw [offerAll_cons]
    exact ih (item.offer o.1 o.2)

theorem ordered_offerAll (h : StartPoint.Ordered item.starts) :
    StartPoint.Ordered (item.offerAll offers).1.starts := by
  induction offers generalizing item with
  | nil => exact h
  | cons o offers ih =>
    rw [offerAll_cons]
    exact ih (ordered_addStarts h)

/-- **All offers**: a start point has an additive property in the end exactly if one had it at first
or the part of some cell that the states of some offer meet has it. -/
theorem exists_mem_offerAll_iff {P : StartPoint sp → Prop} (hP : StartPoint.Additive P) :
    (∃ p ∈ (item.offerAll offers).1.starts, P p) ↔
      (∃ p ∈ item.starts, P p) ∨ ∃ o ∈ offers, ∃ row column,
        o.1.meets (cellAt item.cells row column) = true ∧
          P ⟨row, column, o.1 ∩ cellAt item.cells row column, [o.2]⟩ := by
  induction offers generalizing item with
  | nil => simp [offerAll]
  | cons o offers ih =>
    rw [offerAll_cons, ih, exists_mem_offer_iff hP, List.exists_mem_cons_iff, or_assoc]
    rfl

theorem counts_offerAll :
    (item.offerAll offers).2 = offers.map fun o ↦ item.cells.flatten.countP (o.1.meets ·) := by
  induction offers generalizing item with
  | nil => rfl
  | cons o offers ih =>
    rw [offerAll_cons, ih, length_parts]
    rfl

end Offered

section New

variable {g : Game sp} {node : RankNode sp} {offers others : List (StateSet sp × Nat)}

/-- A new item has no start points but those offered. -/
theorem exists_mem_offerAll_item_iff {P : StartPoint sp → Prop} (hP : StartPoint.Additive P) :
    (∃ p ∈ ((g.item node).offerAll offers).1.starts, P p) ↔
      ∃ o ∈ offers, ∃ row column,
        o.1.meets (cellAt (g.item node).cells row column) = true ∧
          P ⟨row, column, o.1 ∩ cellAt (g.item node).cells row column, [o.2]⟩ := by
  rw [exists_mem_offerAll_iff hP]
  exact or_iff_right fun ⟨p, hp, _⟩ ↦ List.not_mem_nil hp

theorem ordered_offerAll_item : StartPoint.Ordered ((g.item node).offerAll offers).1.starts :=
  ordered_offerAll .nil

/-- What holds of a start point in the end, where only its cell is known. -/
theorem of_mem_offerAll_item {p : StartPoint sp}
    (hp : p ∈ ((g.item node).offerAll offers).1.starts) {Q : StartPoint sp → Prop}
    (hQ : StartPoint.Additive fun q ↦ q.address = p.address ∧ Q q) :
    Q p ↔ ∃ o ∈ offers,
      o.1.meets (cellAt (g.item node).cells p.row p.column) = true ∧
        Q ⟨p.row, p.column, o.1 ∩ cellAt (g.item node).cells p.row p.column, [o.2]⟩ := by
  rw [← ordered_offerAll_item.exists_address_iff hp Q, exists_mem_offerAll_item_iff hQ]
  refine exists_congr fun o ↦ and_congr_right fun _ ↦ ⟨?_, ?_⟩
  · rintro ⟨row, column, hmeets, hcell, hQo⟩
    obtain ⟨rfl, rfl⟩ := Prod.mk.inj hcell
    exact ⟨hmeets, hQo⟩
  · exact fun ⟨hmeets, hQo⟩ ↦ ⟨p.row, p.column, hmeets, rfl, hQo⟩

theorem exists_address_offerAll {row column : Nat} :
    (∃ p ∈ ((g.item node).offerAll offers).1.starts, p.address = (row, column)) ↔
      ∃ o ∈ offers, o.1.meets (cellAt (g.item node).cells row column) = true := by
  rw [exists_mem_offerAll_item_iff (StartPoint.additive_address (row, column))]
  refine exists_congr fun o ↦ and_congr_right fun _ ↦ ⟨?_, fun h ↦ ⟨row, column, h, rfl⟩⟩
  rintro ⟨row', column', h, hcell⟩
  obtain ⟨rfl, rfl⟩ := Prod.mk.inj hcell
  exact h

theorem states_offerAll {p : StartPoint sp}
    (hp : p ∈ ((g.item node).offerAll offers).1.starts) :
    p.states = cellAt (g.item node).cells p.row p.column ∩ .unionAll (offers.map (·.1)) := by
  refine StateSet.ext_mem fun i ↦ ?_
  rw [of_mem_offerAll_item hp (StartPoint.additive_states p.address i), StateSet.mem_inter,
    StateSet.mem_unionAll]
  constructor
  · rintro ⟨o, ho, -, hi⟩
    obtain ⟨hstates, hcell⟩ := StateSet.mem_inter.mp hi
    exact ⟨hcell, o.1, List.mem_map_of_mem ho, hstates⟩
  · rintro ⟨hcell, s, hs, hi⟩
    obtain ⟨o, ho, rfl⟩ := List.mem_map.mp hs
    exact ⟨o, ho, StateSet.meets_iff.mpr ⟨i, hi, hcell⟩, StateSet.mem_inter.mpr ⟨hi, hcell⟩⟩

theorem mem_sources_offerAll {p : StartPoint sp}
    (hp : p ∈ ((g.item node).offerAll offers).1.starts) {id : Nat} :
    id ∈ p.sources ↔ ∃ o ∈ offers,
      o.1.meets (cellAt (g.item node).cells p.row p.column) = true ∧ o.2 = id := by
  rw [of_mem_offerAll_item hp (StartPoint.additive_sources p.address id)]
  simp only [List.mem_singleton, eq_comm (a := id)]

/-- The same offers in another order give the same item. -/
theorem offerAll_congr_perm (h : offers.Perm others) :
    ((g.item node).offerAll others).1 = ((g.item node).offerAll offers).1 := by
  have hstarts : ((g.item node).offerAll others).1.starts =
      ((g.item node).offerAll offers).1.starts :=
    ordered_offerAll_item.ext ordered_offerAll_item fun P hP ↦ by
      rw [exists_mem_offerAll_item_iff hP, exists_mem_offerAll_item_iff hP]
      exact exists_congr fun o ↦ and_congr_left fun _ ↦ h.mem_iff.symm
  obtain ⟨hnode, hcells⟩ := frame_offerAll (g.item node) offers
  obtain ⟨hnode', hcells'⟩ := frame_offerAll (g.item node) others
  exact (Item.mk.injEq ..).mpr ⟨hnode'.trans hnode.symm, hcells'.trans hcells.symm, hstarts⟩

/-- **Start points do not depend on the order of the offers** to an item that has none at first.
Each offer returns the number of cells that its states meet. There is a start point in exactly the
cells that the states of some offer meet; it holds what all the offers together have of its cell,
and lists the nodes whose offers meet it. So the offers in any other order give the same item. -/
theorem offerAll_exact (g : Game sp) (node : RankNode sp) (offers : List (StateSet sp × Nat)) :
    let item := g.item node
    let last := (item.offerAll offers).1
    (item.offerAll offers).2 =
        offers.map (fun o ↦ item.cells.flatten.countP (o.1.meets ·)) ∧
      (last.node = node ∧ last.cells = item.cells) ∧
      StartPoint.Ordered last.starts ∧
      (∀ row column, (∃ p ∈ last.starts, p.address = (row, column)) ↔
        ∃ o ∈ offers, o.1.meets (cellAt item.cells row column) = true) ∧
      (∀ p ∈ last.starts,
        p.states = cellAt item.cells p.row p.column ∩ .unionAll (offers.map (·.1)) ∧
        ∀ id, id ∈ p.sources ↔
          ∃ o ∈ offers, o.1.meets (cellAt item.cells p.row p.column) = true ∧ o.2 = id) ∧
      ∀ others, offers.Perm others → (item.offerAll others).1 = last :=
  ⟨counts_offerAll, frame_offerAll _ offers, ordered_offerAll_item,
    fun _ _ ↦ exists_address_offerAll,
    fun _ hp ↦ ⟨states_offerAll hp, fun _ ↦ mem_sources_offerAll hp⟩,
    fun _ ↦ offerAll_congr_perm⟩

/-- Two nodes lead to the only rank of the game of turns, in either order: one wherever the bit of
the system is clear, which is in every cell, the other wherever that of the environment is set. -/
theorem offerAll_exact_turns :
    let item := Game.turns.item ⟨0, .univ, []⟩
    let offers := [(.literal ⟨1⟩ 0, 4), (.literal ⟨0⟩ 1, 1)]
    offers.Perm offers.reverse ∧
      (item.offerAll offers.reverse).1 = (item.offerAll offers).1 ∧
      (item.offerAll offers).2 = [4, 2] ∧
      (item.offerAll offers).1.starts.map (fun p ↦ (p.address, p.sources)) =
        [((0, 0), [1, 4]), ((0, 1), [4]), ((1, 0), [4]), ((1, 1), [1, 4])] := by
  intro item offers
  have hperm : offers.Perm offers.reverse := (List.reverse_perm offers).symm
  obtain ⟨-, -, -, -, -, hsame⟩ := offerAll_exact Game.turns ⟨0, .univ, []⟩ offers
  exact ⟨hperm, hsame _ hperm, by decide +kernel, by decide +kernel⟩

end New

end Item

end JusticeViolation

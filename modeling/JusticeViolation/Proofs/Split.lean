import JusticeViolation.Proofs.Path.Trace

/-!
# The parts of a rank

A rank that has been explored without a violation is split into approach, cycle and descent. The
three parts consist of states of the rank to which a choice is committed. What awaits the rank lies
in one of them, and a committed step leads from a part into the same part, into a later one or into
the ranks below. Along the paths every step goes to an earlier column of its row or, from the first
column, to the next row. In the descent every step goes to an earlier round of the attractor or
below.
-/

namespace JusticeViolation

variable {sp : Space} {g : Game sp}

/-! ## Closing under committed choices -/

namespace Game

variable {inner states within : StateSet sp}

theorem mem_close_of_mem {i : Nat} (hi : i ∈ states) : i ∈ g.close inner states within :=
  StateSet.subset_closure hi

theorem mem_of_mem_close {i : Nat} (hi : i ∈ g.close inner states within) :
    i ∈ states ∨ i ∈ within := by
  refine StateSet.closure_induction (P := fun s ↦ ∀ i ∈ s, i ∈ states ∨ i ∈ within)
    (fun s hs j hj ↦ ?_) (fun j hj ↦ Or.inl hj) i hi
  rcases StateSet.mem_union.mp hj with hj | hj
  · exact hs j hj
  · exact Or.inr (StateSet.mem_inter.mp hj).2

/-- Nothing is reached from no states. -/
theorem exists_mem_of_mem_close {i : Nat} (hi : i ∈ g.close inner states within) :
    ∃ j, j ∈ states := by
  by_contra hempty
  rw [not_exists] at hempty
  refine StateSet.closure_induction (P := fun s ↦ ∀ j, j ∉ s) (fun s hs j hj ↦ ?_) hempty i hi
  rcases StateSet.mem_union.mp hj with hj | hj
  · exact hs j hj
  · obtain ⟨-, v, hv, -⟩ := mem_image.mp (StateSet.mem_inter.mp hj).1
    exact hs v hv

theorem next_mem_close {v : Nat} (hv : v ∈ g.close inner states within) (hin : v ∈ inner)
    (hsys : v ∈ g.sysTrans) (hw : sp.next v ∈ within) :
    sp.next v ∈ g.close inner states within :=
  StateSet.step_closure_subset (StateSet.mem_inter.mpr ⟨next_mem_image hv hin hsys, hw⟩)

theorem current_close (hs : states.Current) (hw : within.Current) :
    (g.close inner states within).Current :=
  StateSet.closure_induction (P := StateSet.Current)
    (fun _ ht ↦ ht.union ((current_image _ _).inter hw)) hs

end Game

/-! ## The maze of a rank -/

namespace Item

variable {item : Item sp} {candidates : StateSet sp}

theorem getD_mazeCells {row : Nat} :
    (item.mazeCells g candidates).getD row []
      = (item.cells.getD row []).map fun cell ↦ g.tag (cell \ candidates) row := by
  rw [mazeCells, List.getD_eq_getElem?_getD, List.getElem?_map, List.getElem?_zipIdx,
    List.getD_eq_getElem?_getD, Nat.zero_add]
  cases item.cells[row]? with
  | none => rfl
  | some cells => rfl

theorem length_mazeCells : (item.mazeCells g candidates).length = item.cells.length := by
  rw [mazeCells, List.length_map, List.length_zipIdx]

theorem mem_mazeCells (hg : g.Shaped) {row column i : Nat} (hrow : row < g.numRows) :
    i ∈ cellAt (item.mazeCells g candidates) row column ↔
      i ∈ cellAt item.cells row column ∧ i ∉ candidates ∧ sp.digit i g.marker = row := by
  have hcell : cellAt (item.mazeCells g candidates) row column
      = g.tag (cellAt item.cells row column \ candidates) row := by
    have hempty : g.tag ((∅ : StateSet sp) \ candidates) row = ∅ :=
      StateSet.ext_mem fun j ↦ iff_of_false (fun hj ↦ StateSet.not_mem_empty j
        (StateSet.mem_sdiff.mp ((hg.mem_tag hrow).mp hj).1).1) (StateSet.not_mem_empty j)
    rw [cellAt, getD_mazeCells, cellAt,
      ← List.getD_map _ _ fun cell ↦ g.tag (cell \ candidates) row, hempty]
  rw [hcell, hg.mem_tag hrow, StateSet.mem_sdiff, and_assoc]

/-- An item of a rank, with what is known of the ranks that it leads to. -/
structure Ready (g : Game sp) (item : Item sp) (lower : StateSet sp) : Prop extends
    item.Fits g where
  rank_lt : item.node.rank < g.numRanks
  untagged_lower : lower.Untagged g.marker
  lower_subset : ∀ i ∈ lower, i ∈ g.below item.node.rank

/-- The attractor of an item. -/
def attractor (g : Game sp) (item : Item sp) (lower : StateSet sp) : Attractor sp :=
  g.attractor item.node.states lower

/-- The maze through which the paths of an item are traced. -/
def maze (g : Game sp) (item : Item sp) (lower : StateSet sp) : Maze sp :=
  ⟨item.node.rank, item.mazeCells g (item.attractor g lower).candidates,
    (item.attractor g lower).candidates ∪ lower⟩

namespace Ready

variable {lower : StateSet sp} (hg : g.Shaped) (ho : g.OfStates) (h : item.Ready g lower)

include hg ho h

theorem attracts :
    g.Attracts item.node.states lower (item.attractor g lower) :=
  Game.attracts_attractor hg.rowless (h.states_eq ▸ ho.untagged_level _) h.untagged_lower

theorem rounds : ∃ round n, g.Rounds lower (item.attractor g lower) round n :=
  Game.exists_rounds_attractor hg.rowless (h.states_eq ▸ ho.untagged_level _) h.untagged_lower

omit ho in
theorem length_cells : (item.maze g lower).cells.length = g.numRows := by
  rw [maze, length_mazeCells, h.cells_eq, hg.length_cells h.rank_lt]

omit ho in
/-- The states of a cell of the maze. -/
theorem mem_cell {row column i : Nat} :
    i ∈ cellAt (item.maze g lower).cells row column ↔
      row < g.numRows ∧ i ∈ g.level item.node.rank ∧ g.FirstIn item.node.rank row column i ∧
        i ∉ (item.attractor g lower).candidates ∧ sp.digit i g.marker = row := by
  constructor
  · intro hi
    have hrow : row < g.numRows := length_cells hg h ▸ row_lt_of_mem_cellAt hi
    obtain ⟨hcell, hrest⟩ := (mem_mazeCells hg hrow).mp hi
    obtain ⟨hlevel, hfirst⟩ := h.toFits.mem_cell.mp hcell
    exact ⟨hrow, hlevel, hfirst, hrest⟩
  · rintro ⟨hrow, hlevel, hfirst, hrest⟩
    exact (mem_mazeCells hg hrow).mpr ⟨h.toFits.mem_cell.mpr ⟨hlevel, hfirst⟩, hrest⟩

theorem fits_maze : (item.maze g lower).Fits g where
  length_cells := length_cells hg h
  digit_marker := fun row column i hi ↦ ((mem_cell hg h).mp hi).2.2.2.2
  disjoint := fun row c d i hc hd ↦
    ((mem_cell hg h).mp hc).2.2.1.unique ((mem_cell hg h).mp hd).2.2.1
  current_cell := by
    intro row column i j hi hj hij
    have hcell : i ∈ cellAt item.cells row column ↔ j ∈ cellAt item.cells row column :=
      (untagged_cell ho h.toFits row column).current i j hi hj hij
    rw [h.toFits.mem_cell, h.toFits.mem_cell] at hcell
    rw [mem_cell hg h, mem_cell hg h, hij g.marker hg.marker_current,
      (attracts hg ho h).current i j hi hj hij, ← and_assoc (a := i ∈ _), hcell, and_assoc]
  current_escape := (attracts hg ho h).current.union h.untagged_lower.current

omit ho in
/-- A state of the maze does not lie outside it under another tag. -/
theorem not_mem_escape {i : Nat} (hi : (item.maze g lower).Inside i) :
    i ∉ (item.maze g lower).escape := by
  obtain ⟨row, column, hi⟩ := hi
  obtain ⟨-, hlevel, -, hcand, -⟩ := (mem_cell hg h).mp hi
  intro hescape
  rcases StateSet.mem_union.mp hescape with hc | hl
  · exact hcand hc
  · exact (Game.mem_level.mp hlevel).2 (h.lower_subset i hl)

theorem untagged_escape : (item.maze g lower).escape.Untagged g.marker :=
  (attracts hg ho h).untagged.union h.untagged_lower

theorem commits : (item.maze g lower).Commits g (item.attractor g lower).inner where
  functional := (attracts hg ho h).functional
  mem_envTrans := fun _ hv ↦ (attracts hg ho h).mem_envTrans h.untagged_lower.current hv
  follows := by
    intro v hv p hp
    -- the choices of the attractor belong to candidates, which are in no cell
    have hcand : v ∈ (item.attractor g lower).candidates :=
      (attracts hg ho h).domain_eq ▸ Game.mem_domain_of_mem hv
    exact absurd hcand ((mem_cell hg h).mp hp).2.2.2.1
  answerFree := (attracts hg ho h).answerFree

theorem fits_seeds : ∀ p ∈ item.seeds g (item.maze g lower).cells,
    p.Fits (item.maze g lower) := by
  intro p hp
  obtain ⟨q, hq, rfl⟩ := List.mem_map.mp (List.mem_filter.mp hp).1
  refine ⟨((fits_maze hg ho h).current_cell q.row q.column).inter ?_,
    fun i hi ↦ (StateSet.mem_inter.mp hi).1⟩
  exact hg.current_tag (h.untagged_start q hq).current q.row

/-- A state that awaits the item is a candidate, or a seed holds it with the tag of its row. -/
theorem awaits_cases {id i : Nat} (hi : item.Awaits id i) :
    i ∈ (item.attractor g lower).candidates ∨
      ∃ j, sp.bare g.marker j = sp.bare g.marker i ∧
        Held (item.seeds g (item.maze g lower).cells) j := by
  obtain ⟨p, hp, -, hip⟩ := hi
  by_cases hcand : i ∈ (item.attractor g lower).candidates
  · exact Or.inl hcand
  · have hcell : i ∈ cellAt item.cells p.row p.column := h.start_subset p hp i hip
    have hrow : p.row < g.numRows := by
      have hlt := row_lt_of_mem_cellAt hcell
      rwa [h.cells_eq, hg.length_cells h.rank_lt] at hlt
    have htag : p.row < sp.domainSize g.marker := by rwa [hg.domainSize_marker]
    set j := sp.put i g.marker p.row with hj
    have hlt : i < sp.size := StateSet.lt_size hip
    have hjlt : j < sp.size := Space.put_lt htag
    have hbare : sp.bare g.marker j = sp.bare g.marker i :=
      Space.bare_eq_iff.mpr fun x _ hx ↦ Space.digit_put_of_ne htag hx
    have hdigit : sp.digit j g.marker = p.row := Space.digit_put_self htag
    have hjcell : j ∈ cellAt (item.maze g lower).cells p.row p.column := by
      refine (mem_mazeCells hg hrow).mpr ⟨?_, fun hjc ↦ hcand ?_, hdigit⟩
      · exact ((untagged_cell ho h.toFits _ _).mem_iff_of_bare_eq hjlt hlt hbare).mpr hcell
      · exact ((attracts hg ho h).untagged.mem_iff_of_bare_eq hjlt hlt hbare).mp hjc
    have hjtag : j ∈ g.tag p.states p.row := (hg.mem_tag hrow).mpr
      ⟨((h.untagged_start p hp).mem_iff_of_bare_eq hjlt hlt hbare).mpr hip, hdigit⟩
    have hseed : j ∈ cellAt (item.maze g lower).cells p.row p.column ∩ g.tag p.states p.row :=
      StateSet.mem_inter.mpr ⟨hjcell, hjtag⟩
    refine Or.inr ⟨j, hbare, ⟨p.row, p.column, _⟩, ?_, hseed⟩
    refine List.mem_filter.mpr ⟨List.mem_map.mpr ⟨p, hp, rfl⟩, ?_⟩
    rw [Bool.not_eq_true', StateSet.isEmpty_eq_false_iff]
    exact ⟨j, hseed⟩

end Ready

end Item

/-! ## The parts -/

/-- The position of a kind in the order in which the play goes through the parts of a rank. -/
def NodeKind.place : NodeKind → Nat
  | .initial => 0
  | .attractorNotFromCycle => 1
  | .cycle => 2
  | .attractorFromCycle => 3

theorem NodeKind.place_injective {k l : NodeKind} (h : k.place = l.place) : k = l := by
  cases k <;> cases l <;> first | rfl | simp [place] at h

namespace Split

/-- The parts of a rank, in the order in which the play goes through them. -/
def parts (s : Split sp) : List (StateSet sp) := [s.approach, s.cycle, s.descent]

theorem mem_parts {s : Split sp} {states : StateSet sp} :
    states ∈ s.parts ↔ states = s.approach ∨ states = s.cycle ∨ states = s.descent := by
  simp [parts]

theorem approach_mem_parts (s : Split sp) : s.approach ∈ s.parts := mem_parts.mpr (Or.inl rfl)

theorem cycle_mem_parts (s : Split sp) : s.cycle ∈ s.parts := mem_parts.mpr (Or.inr (Or.inl rfl))

theorem descent_mem_parts (s : Split sp) : s.descent ∈ s.parts :=
  mem_parts.mpr (Or.inr (Or.inr rfl))

/-- The part of a rank that the nodes of a kind hold. -/
def part (s : Split sp) : NodeKind → StateSet sp
  | .initial => ∅
  | .attractorNotFromCycle => s.approach
  | .cycle => s.cycle
  | .attractorFromCycle => s.descent

/-- What holds of the parts of a rank that has been explored without a violation. -/
structure Sound (g : Game sp) (item : Item sp) (lower : StateSet sp) (s : Split sp) : Prop where
  functional : g.Functional s.tracing.inner
  mem_envTrans : ∀ v ∈ s.tracing.inner, v ∈ g.envTrans
  current : ∀ states ∈ s.parts, states.Current
  mem_level : ∀ states ∈ s.parts, ∀ i ∈ states, i ∈ g.level item.node.rank
  committed : ∀ states ∈ s.parts, ∀ i ∈ states, i ∈ g.domain s.tracing.inner
  awaited : ∀ id i, item.Awaits id i → ∃ states ∈ s.parts, i ∈ g.strip states
  from_approach : ∀ v ∈ s.approach, v ∈ s.tracing.inner → v ∈ g.sysTrans →
    (∃ states ∈ s.parts, sp.next v ∈ g.strip states) ∨ sp.next v ∈ lower
  from_cycle : ∀ v ∈ s.cycle, v ∈ s.tracing.inner → v ∈ g.sysTrans →
    sp.next v ∈ g.strip s.cycle ∨ sp.next v ∈ g.strip s.descent ∨ sp.next v ∈ lower
  from_descent : ∀ v ∈ s.descent, v ∈ s.tracing.inner → v ∈ g.sysTrans →
    sp.next v ∈ g.strip s.descent ∨ sp.next v ∈ lower

/-- A committed step from a part leads into some part or below. -/
theorem Sound.from_part {item : Item sp} {lower : StateSet sp} {s : Split sp}
    (h : s.Sound g item lower) {states : StateSet sp} (hs : states ∈ s.parts) {v : Nat}
    (hv : v ∈ states) (hin : v ∈ s.tracing.inner) (hsys : v ∈ g.sysTrans) :
    (∃ states ∈ s.parts, sp.next v ∈ g.strip states) ∨ sp.next v ∈ lower := by
  rcases mem_parts.mp hs with rfl | rfl | rfl
  · exact h.from_approach v hv hin hsys
  · rcases h.from_cycle v hv hin hsys with hcycle | hdescent | hlower
    · exact Or.inl ⟨_, s.cycle_mem_parts, hcycle⟩
    · exact Or.inl ⟨_, s.descent_mem_parts, hdescent⟩
    · exact Or.inr hlower
  · rcases h.from_descent v hv hin hsys with hdescent | hlower
    · exact Or.inl ⟨_, s.descent_mem_parts, hdescent⟩
    · exact Or.inr hlower

end Split

/-- The step `v` makes progress in a rank: from a later column it goes to an earlier one of the same
row, from the first column to the next row. -/
def Game.Progresses (g : Game sp) (r v : Nat) : Prop :=
  ∃ column, g.FirstIn r (sp.digit v g.marker) column v ∧
    ((0 < column ∧ sp.digit (sp.next v) g.marker = sp.digit v g.marker ∧
        ∃ c, c < column ∧ g.FirstIn r (sp.digit v g.marker) c (sp.next v)) ∨
      (column = 0 ∧ sp.digit (sp.next v) g.marker = (sp.digit v g.marker + 1) % g.numRows))

namespace Item.Ready

variable {item : Item sp} {lower : StateSet sp} (hg : g.Shaped) (ho : g.OfStates)
  (h : item.Ready g lower)

/-- All states on the paths of a rank. -/
def onPath (g : Game sp) (item : Item sp) (lower : StateSet sp) : StateSet sp :=
  unionPoints Path.points (item.split g lower).tracing.paths

theorem mem_onPath {i : Nat} :
    i ∈ onPath g item lower ↔ ∃ w ∈ (item.split g lower).tracing.walks, Held w.points i :=
  Tracing.mem_cover

/-- A point of a path belongs to its approach or to its cycle. -/
theorem mem_onPath_cases {i : Nat} (hi : i ∈ onPath g item lower) :
    i ∈ unionPoints Path.approach (item.split g lower).tracing.paths ∨
      i ∈ unionPoints Path.cycle (item.split g lower).tracing.paths := by
  obtain ⟨p, hp, q, hq, hiq⟩ := mem_unionPoints.mp hi
  rw [← List.take_append_drop p.start p.points] at hq
  rcases List.mem_append.mp hq with hq | hq
  · exact Or.inl (mem_unionPoints.mpr ⟨p, hp, q, hq, hiq⟩)
  · exact Or.inr (mem_unionPoints.mpr ⟨p, hp, q, hq, hiq⟩)

theorem mem_onPath_of_approach {i : Nat} (hi : i ∈ (item.split g lower).approach) :
    i ∈ onPath g item lower := by
  obtain ⟨p, hp, q, hq, hiq⟩ := mem_unionPoints.mp (StateSet.mem_sdiff.mp hi).1
  exact mem_unionPoints.mpr ⟨p, hp, q, List.mem_of_mem_take hq, hiq⟩

theorem mem_onPath_of_cycle {i : Nat} (hi : i ∈ (item.split g lower).cycle) :
    i ∈ onPath g item lower := by
  rcases Game.mem_of_mem_close hi with hi | hi
  · obtain ⟨p, hp, q, hq, hiq⟩ := mem_unionPoints.mp hi
    exact mem_unionPoints.mpr ⟨p, hp, q, List.mem_of_mem_drop hq, hiq⟩
  · exact hi

theorem mem_candidates_of_descent {i : Nat} (hi : i ∈ (item.split g lower).descent) :
    i ∈ (item.attractor g lower).candidates := by
  rcases Game.mem_of_mem_close hi with hi | hi
  · exact (StateSet.mem_inter.mp hi).2
  · exact hi

section Explored

variable (hv : (item.split g lower).tracing.violation = none)

include hg ho h hv

theorem sound_tracing :
    (item.split g lower).tracing.Sound g (item.maze g lower) (item.attractor g lower).inner
      (item.seeds g (item.maze g lower).cells) :=
  Maze.sound_trace hg (fits_maze hg ho h) (commits hg ho h) (fits_seeds hg ho h) hv

theorem inside_of_onPath {i : Nat} (hi : i ∈ onPath g item lower) :
    (item.maze g lower).Inside i := by
  obtain ⟨w, hw, p, hp, hip⟩ := mem_onPath.mp hi
  exact ⟨p.row, p.column, ((sound_tracing hg ho h hv).settled w hw p hp).subset i hip⟩

theorem committed_of_onPath {i : Nat} (hi : i ∈ onPath g item lower) :
    i ∈ g.domain (item.split g lower).tracing.inner := by
  obtain ⟨w, hw, p, hp, hip⟩ := mem_onPath.mp hi
  exact ((sound_tracing hg ho h hv).settled w hw p hp).committed i hip

private theorem current_unionPoints {points : Path sp → List (Point sp)}
    (hsub : ∀ p, ∀ q ∈ points p, q ∈ p.points) :
    (unionPoints points (item.split g lower).tracing.paths).Current := by
  refine StateSet.DependsOn.unionAll fun s hs ↦ ?_
  obtain ⟨p, hp, hs⟩ := List.mem_flatMap.mp hs
  obtain ⟨q, hq, rfl⟩ := List.mem_map.mp hs
  obtain ⟨w, hw, rfl⟩ := List.mem_map.mp hp
  exact ((sound_tracing hg ho h hv).settled w hw q (hsub _ q hq)).current

theorem current_onPath : (onPath g item lower).Current :=
  current_unionPoints hg ho h hv fun _ _ hq ↦ hq

theorem current_cycle : (item.split g lower).cycle.Current :=
  Game.current_close (current_unionPoints hg ho h hv fun _ _ hq ↦ List.mem_of_mem_drop hq)
    (current_onPath hg ho h hv)

theorem current_approach : (item.split g lower).approach.Current :=
  StateSet.DependsOn.sdiff
    (current_unionPoints hg ho h hv fun _ _ hq ↦ List.mem_of_mem_take hq)
    (hg.untagged_strip (current_cycle hg ho h hv)).current

omit hv in
theorem current_descent : (item.split g lower).descent.Current := by
  have hcand := (attracts hg ho h).current
  refine Game.current_close (StateSet.DependsOn.inter (StateSet.DependsOn.union ?_ ?_) hcand) hcand
  · refine StateSet.DependsOn.unionAll fun s hs ↦ ?_
    obtain ⟨p, hp, rfl⟩ := List.mem_map.mp hs
    exact (h.untagged_start p hp).current
  · exact (hg.untagged_strip (Game.current_image _ _)).current

/-- A state of a path that is on the cycle under no tag is one of the approach. -/
theorem mem_approach_of_onPath {i : Nat} (hi : i ∈ onPath g item lower)
    (hcycle : i ∉ g.strip (item.split g lower).cycle) : i ∈ (item.split g lower).approach := by
  rcases mem_onPath_cases hi with happ | hcyc
  · exact StateSet.mem_sdiff.mpr ⟨happ, hcycle⟩
  · exact absurd (hg.mem_strip_of_mem (current_cycle hg ho h hv) (Game.mem_close_of_mem hcyc))
      hcycle

theorem mem_cycle_or_approach {i : Nat} (hi : i ∈ onPath g item lower) :
    i ∈ g.strip (item.split g lower).cycle ∨ i ∈ g.strip (item.split g lower).approach := by
  by_cases hcycle : i ∈ g.strip (item.split g lower).cycle
  · exact Or.inl hcycle
  · exact Or.inr (hg.mem_strip_of_mem (current_approach hg ho h hv)
      (mem_approach_of_onPath hg ho h hv hi hcycle))

/-- A committed step from a path goes outside the maze or stays on the paths. -/
theorem next_of_onPath {v : Nat} (hvp : v ∈ onPath g item lower)
    (hin : v ∈ (item.split g lower).tracing.inner) (hsys : v ∈ g.sysTrans) :
    sp.next v ∈ (item.maze g lower).escape ∨ sp.next v ∈ onPath g item lower := by
  rcases (sound_tracing hg ho h hv).answered v hin hsys with hattr | hescape | hheld
  · -- the choices of the attractor belong to candidates, which are on no path
    have hcand : v ∈ (item.attractor g lower).candidates :=
      (attracts hg ho h).domain_eq ▸ Game.mem_domain_of_mem hattr
    exact absurd (StateSet.mem_union.mpr (Or.inl hcand))
      (not_mem_escape hg h (inside_of_onPath hg ho h hv hvp))
  · exact Or.inl hescape
  · exact Or.inr (mem_onPath.mpr hheld)

omit hv in
/-- What a committed step from a path finds outside the maze is the descent or below. -/
theorem next_of_escape {v : Nat} (hvp : v ∈ onPath g item lower)
    (hin : v ∈ (item.split g lower).tracing.inner) (hsys : v ∈ g.sysTrans)
    (hescape : sp.next v ∈ (item.maze g lower).escape) :
    sp.next v ∈ g.strip (item.split g lower).descent ∨ sp.next v ∈ lower := by
  rcases StateSet.mem_union.mp hescape with hcand | hlower
  · have himage := hg.mem_strip_of_mem (Game.current_image _ _) (Game.next_mem_image hvp hin hsys)
    refine Or.inl (hg.mem_strip_of_mem (current_descent hg ho h) (Game.mem_close_of_mem ?_))
    exact StateSet.mem_inter.mpr ⟨StateSet.mem_union.mpr (Or.inr himage), hcand⟩
  · exact Or.inr hlower

/-- A choice committed for a candidate is one of the attractor. -/
theorem mem_inner_of_candidate {v : Nat} (hc : v ∈ (item.attractor g lower).candidates)
    (hin : v ∈ (item.split g lower).tracing.inner) : v ∈ (item.attractor g lower).inner :=
  ((sound_tracing hg ho h hv).placed v hin).resolve_right fun hinside ↦
    not_mem_escape hg h hinside (StateSet.mem_union.mpr (Or.inl hc))

theorem forced_of_candidate {v : Nat} (hc : v ∈ (item.attractor g lower).candidates)
    (hin : v ∈ (item.split g lower).tracing.inner) :
    v ∈ g.forcing (lower ∪ (item.attractor g lower).candidates) :=
  (attracts hg ho h).forced v (mem_inner_of_candidate hg ho h hv hc hin)

theorem level_of_mem_part {states : StateSet sp} (hs : states ∈ (item.split g lower).parts)
    {i : Nat} (hi : i ∈ states) : i ∈ g.level item.node.rank := by
  have hpath : ∀ i ∈ onPath g item lower, i ∈ g.level item.node.rank := fun i hi ↦ by
    obtain ⟨row, column, hi⟩ := inside_of_onPath hg ho h hv hi
    exact ((mem_cell hg h).mp hi).2.1
  rcases Split.mem_parts.mp hs with rfl | rfl | rfl
  · exact hpath i (mem_onPath_of_approach hi)
  · exact hpath i (mem_onPath_of_cycle hi)
  · exact h.states_eq ▸ (attracts hg ho h).subset_states i (mem_candidates_of_descent hi)

theorem committed_of_mem_part {states : StateSet sp} (hs : states ∈ (item.split g lower).parts)
    {i : Nat} (hi : i ∈ states) : i ∈ g.domain (item.split g lower).tracing.inner := by
  rcases Split.mem_parts.mp hs with rfl | rfl | rfl
  · exact committed_of_onPath hg ho h hv (mem_onPath_of_approach hi)
  · exact committed_of_onPath hg ho h hv (mem_onPath_of_cycle hi)
  · have hcand := mem_candidates_of_descent hi
    rw [← (attracts hg ho h).domain_eq] at hcand
    obtain ⟨hlt, v, hvin, hvi⟩ := Game.mem_domain.mp hcand
    exact Game.mem_domain.mpr ⟨hlt, v, (sound_tracing hg ho h hv).before_subset v hvin, hvi⟩

/-- What awaits the item lies in one of the parts. -/
theorem exists_part_of_awaits {id i : Nat} (hi : item.Awaits id i) :
    ∃ states ∈ (item.split g lower).parts, i ∈ g.strip states := by
  have hcases := awaits_cases hg ho h hi
  obtain ⟨p, hp, -, hip⟩ := hi
  rcases hcases with hcand | ⟨j, hji, hseed⟩
  · have hstarted : i ∈ StateSet.unionAll (item.starts.map (·.states)) :=
      StateSet.mem_unionAll.mpr ⟨p.states, List.mem_map.mpr ⟨p, hp, rfl⟩, hip⟩
    refine ⟨_, (item.split g lower).descent_mem_parts,
      hg.mem_strip_of_mem (current_descent hg ho h) (Game.mem_close_of_mem ?_)⟩
    exact StateSet.mem_inter.mpr ⟨StateSet.mem_union.mpr (Or.inl hstarted), hcand⟩
  · have hj : j ∈ onPath g item lower := mem_onPath.mpr ((sound_tracing hg ho h hv).held j hseed)
    have hstrip : ∀ {states : StateSet sp}, states.Current → j ∈ g.strip states →
        i ∈ g.strip states := fun hs hjs ↦
      ((hg.untagged_strip hs).mem_iff_of_bare_eq (StateSet.lt_size hj) (StateSet.lt_size hip)
        hji).mp hjs
    rcases mem_cycle_or_approach hg ho h hv hj with hjc | hja
    · exact ⟨_, (item.split g lower).cycle_mem_parts, hstrip (current_cycle hg ho h hv) hjc⟩
    · exact ⟨_, (item.split g lower).approach_mem_parts,
        hstrip (current_approach hg ho h hv) hja⟩

/-- **The parts of a rank are sound.** -/
theorem sound_split : (item.split g lower).Sound g item lower where
  functional := (sound_tracing hg ho h hv).commits.functional
  mem_envTrans := (sound_tracing hg ho h hv).commits.mem_envTrans
  current := by
    intro states hs
    rcases Split.mem_parts.mp hs with rfl | rfl | rfl
    · exact current_approach hg ho h hv
    · exact current_cycle hg ho h hv
    · exact current_descent hg ho h
  mem_level := fun _ hs _ hi ↦ level_of_mem_part hg ho h hv hs hi
  committed := fun _ hs _ hi ↦ committed_of_mem_part hg ho h hv hs hi
  awaited := fun _ _ hi ↦ exists_part_of_awaits hg ho h hv hi
  from_approach := by
    intro v hva hin hsys
    have hvp := mem_onPath_of_approach hva
    rcases next_of_onPath hg ho h hv hvp hin hsys with hescape | hpath
    · rcases next_of_escape hg ho h hvp hin hsys hescape with hdescent | hlower
      · exact Or.inl ⟨_, (item.split g lower).descent_mem_parts, hdescent⟩
      · exact Or.inr hlower
    · rcases mem_cycle_or_approach hg ho h hv hpath with hcycle | happroach
      · exact Or.inl ⟨_, (item.split g lower).cycle_mem_parts, hcycle⟩
      · exact Or.inl ⟨_, (item.split g lower).approach_mem_parts, happroach⟩
  from_cycle := by
    intro v hvc hin hsys
    have hvp := mem_onPath_of_cycle hvc
    rcases next_of_onPath hg ho h hv hvp hin hsys with hescape | hpath
    · exact Or.inr (next_of_escape hg ho h hvp hin hsys hescape)
    · exact Or.inl (hg.mem_strip_of_mem (current_cycle hg ho h hv)
        (Game.next_mem_close hvc hin hsys hpath))
  from_descent := by
    intro v hvd hin hsys
    have hforce := forced_of_candidate hg ho h hv (mem_candidates_of_descent hvd) hin
    have htarget := ((Game.mem_forcing (h.untagged_lower.current.union
      (attracts hg ho h).current)).mp hforce).2 v hsys (Space.AgreeOff.refl _ v)
    rcases StateSet.mem_union.mp htarget with hlower | hcand
    · exact Or.inr hlower
    · exact Or.inl (hg.mem_strip_of_mem (current_descent hg ho h)
        (Game.next_mem_close hvd hin hsys hcand))

/-! ### The parts are disjoint -/

/-- States of a path are no candidates, under any tag. -/
theorem not_mem_descent_of_onPath {states : StateSet sp} (hs : states.Current)
    (hpath : ∀ i ∈ states, i ∈ onPath g item lower) {i : Nat} (hi : i ∈ g.strip states) :
    i ∉ g.strip (item.split g lower).descent := fun hid ↦ by
  have huntagged := (attracts hg ho h).untagged
  refine hg.not_mem_of_mem_strip hs huntagged (fun j hj hcand ↦ ?_) hi
    (hg.mem_of_mem_strip_of_subset (current_descent hg ho h) huntagged
      (fun _ hj ↦ mem_candidates_of_descent hj) hid)
  exact not_mem_escape hg h (inside_of_onPath hg ho h hv (hpath j hj))
    (StateSet.mem_union.mpr (Or.inl hcand))

/-- **The parts of a rank are disjoint, tags aside**: the approach leaves out what is on the cycle
under any tag, and no path goes through a candidate. -/
theorem disjoint_parts {k l : NodeKind} (hkl : k.place < l.place) {i : Nat}
    (hi : i ∈ g.strip ((item.split g lower).part k)) :
    i ∉ g.strip ((item.split g lower).part l) := by
  have happroach := current_approach hg ho h hv
  have hcycle := current_cycle hg ho h hv
  cases k with
  | initial =>
    obtain ⟨-, j, hj, -⟩ := (hg.mem_strip (.empty _)).mp hi
    exact absurd hj (StateSet.not_mem_empty j)
  | attractorNotFromCycle =>
    cases l with
    | initial => simp [NodeKind.place] at hkl
    | attractorNotFromCycle => simp at hkl
    | cycle =>
      exact hg.not_mem_of_mem_strip happroach (hg.untagged_strip hcycle)
        (fun _ hj ↦ (StateSet.mem_sdiff.mp hj).2) hi
    | attractorFromCycle =>
      exact not_mem_descent_of_onPath hg ho h hv happroach (fun _ ↦ mem_onPath_of_approach) hi
  | cycle =>
    cases l with
    | attractorFromCycle =>
      exact not_mem_descent_of_onPath hg ho h hv hcycle (fun _ ↦ mem_onPath_of_cycle) hi
    | _ => simp [NodeKind.place] at hkl
  | attractorFromCycle => cases l <;> simp [NodeKind.place] at hkl

/-! ### Progress -/

/-- **A step along the paths makes progress**, and the row that it enters is on the paths. -/
theorem progress_of_onPath {v : Nat} (hvp : v ∈ onPath g item lower)
    (hin : v ∈ (item.split g lower).tracing.inner) (hsys : v ∈ g.sysTrans)
    (hstay : sp.next v ∈ g.strip (onPath g item lower)) :
    sp.next v ∈ onPath g item lower ∧ g.Progresses item.node.rank v := by
  have hfits := fits_maze hg ho h
  -- the escape says nothing about rows, so a state of a path is not there under another tag
  have hno : sp.next v ∉ (item.maze g lower).escape :=
    hg.not_mem_of_mem_strip (current_onPath hg ho h hv) (untagged_escape hg ho h)
      (fun _ hj ↦ not_mem_escape hg h (inside_of_onPath hg ho h hv hj)) hstay
  refine ⟨(next_of_onPath hg ho h hv hvp hin hsys).resolve_left hno, ?_⟩
  obtain ⟨row, column, hcell⟩ := inside_of_onPath hg ho h hv hvp
  obtain ⟨-, -, hfirst, -, hdigit⟩ := (mem_cell hg h).mp hcell
  obtain ⟨row', top, htarget, hforce, -⟩ :=
    (sound_tracing hg ho h hv).commits.follows v hin ⟨row, column, ∅⟩ hcell
  have hreach := (((Game.mem_forcing (hfits.current_target row' top)).mp hforce).2 v hsys
    (Space.AgreeOff.refl _ v))
  obtain ⟨c, hc, hnext⟩ :=
    Maze.mem_reach.mp ((StateSet.mem_union.mp hreach).resolve_right hno)
  obtain ⟨-, -, hfirst', -, hdigit'⟩ := (mem_cell hg h).mp hnext
  have hleads : (item.maze g lower).Leads ⟨row, column, ∅⟩ ⟨row', c, ∅⟩ := ⟨top, htarget, hc⟩
  rw [Game.Progresses, hdigit, hdigit']
  refine ⟨column, hfirst, ?_⟩
  rcases Nat.eq_zero_or_pos column with hzero | hpos
  · refine Or.inr ⟨hzero, ?_⟩
    have hrow : row' = (row + 1) % (item.maze g lower).cells.length := hleads.of_zero hzero
    rwa [hfits.length_cells] at hrow
  · obtain ⟨hrow, hlt⟩ : row' = row ∧ c < column := hleads.of_pos hpos
    exact Or.inl ⟨hpos, hrow, c, hlt, hrow ▸ hfirst'⟩

/-- A step inside the cycle makes progress, and its row is the one that the cycle holds. -/
theorem cycle_progress {v : Nat} (hvc : v ∈ (item.split g lower).cycle)
    (hin : v ∈ (item.split g lower).tracing.inner) (hsys : v ∈ g.sysTrans)
    (hstay : sp.next v ∈ g.strip (item.split g lower).cycle) :
    sp.next v ∈ (item.split g lower).cycle ∧ g.Progresses item.node.rank v := by
  obtain ⟨hpath, hprogress⟩ := progress_of_onPath hg ho h hv (mem_onPath_of_cycle hvc) hin hsys
    (hg.strip_mono (fun _ hi ↦ mem_onPath_of_cycle hi) hstay)
  exact ⟨Game.next_mem_close hvc hin hsys hpath, hprogress⟩

/-- A step inside the approach makes progress. -/
theorem approach_progress {v : Nat} (hva : v ∈ (item.split g lower).approach)
    (hin : v ∈ (item.split g lower).tracing.inner) (hsys : v ∈ g.sysTrans)
    (hstay : sp.next v ∈ (item.split g lower).approach) : g.Progresses item.node.rank v :=
  (progress_of_onPath hg ho h hv (mem_onPath_of_approach hva) hin hsys
    (hg.mem_strip_of_mem (current_onPath hg ho h hv) (mem_onPath_of_approach hstay))).2

/-- Whatever answers a choice of the descent lies in the descent or below. -/
theorem next_of_descent {v w : Nat} (hvd : v ∈ (item.split g lower).descent)
    (hin : v ∈ (item.split g lower).tracing.inner) (hw : w ∈ g.trans) (hvw : g.SameChoice v w) :
    sp.next w ∈ (item.split g lower).descent ∨ sp.next w ∈ lower := by
  obtain ⟨henv, hsys⟩ := Game.mem_trans.mp hw
  obtain ⟨round, n, hrounds⟩ := rounds hg ho h
  have hattr := mem_inner_of_candidate hg ho h hv (mem_candidates_of_descent hvd) hin
  have hwd : w ∈ (item.split g lower).descent :=
    ((current_descent hg ho h).mem_iff_of_now_eq (StateSet.lt_size hvd) (StateSet.lt_size henv)
      hvw.now_eq).mp hvd
  have hwin : w ∈ (item.split g lower).tracing.inner :=
    (sound_tracing hg ho h hv).before_subset w (hrounds.answered v hattr w henv hvw)
  rcases hrounds.falls v hattr w hsys hvw with hlower | ⟨hcand, -⟩
  · exact Or.inr hlower
  · exact Or.inl (Game.next_mem_close hwd hwin hsys hcand)

/-- **The descent is left**: its states can be numbered, rows aside, so that every step that does
not lead below leads to a smaller number. -/
theorem exists_round_descent : ∃ round : Nat → Nat, ∀ v ∈ (item.split g lower).descent,
    v ∈ (item.split g lower).tracing.inner → v ∈ g.sysTrans →
      sp.next v ∈ lower ∨ round (sp.bare g.marker (sp.next v)) < round (sp.bare g.marker v) := by
  obtain ⟨round, n, hrounds⟩ := rounds hg ho h
  refine ⟨round, fun v hvd hin hsys ↦ ?_⟩
  have hattr := mem_inner_of_candidate hg ho h hv (mem_candidates_of_descent hvd) hin
  exact (hrounds.falls v hattr v hsys (Space.AgreeOff.refl _ v)).imp_right And.right

end Explored

end Item.Ready

end JusticeViolation

import JusticeViolation.Path
import JusticeViolation.Proofs.Attractor
import JusticeViolation.Proofs.Progress

/-!
# One step of a path

A step leads from a point to the highest column that a permitted choice can land in. What a step
commits is a permitted choice for each of its movers, and a permitted choice is either one that was
committed before or belongs to a state without one. So the committed choices stay a function of the
state, and each of them keeps to the order of the cells: it forces the play into the row and the
columns that its cell leads to, or out of the maze.

Every answer to a new choice is accounted for: it falls outside the maze, or into the next point or
one that is spilled; and so is every state of the point that is left.
-/

namespace JusticeViolation

variable {sp : Space}

/-! ## Mazes and points -/

/-- The cells of a maze are disjoint sets of states, tagged with their rows. -/
structure Maze.Fits (g : Game sp) (m : Maze sp) : Prop where
  length_cells : m.cells.length = g.numRows
  digit_marker : ∀ row column, ∀ i ∈ cellAt m.cells row column, sp.digit i g.marker = row
  disjoint : ∀ row c d i, i ∈ cellAt m.cells row c → i ∈ cellAt m.cells row d → c = d
  current_cell : ∀ row column, (cellAt m.cells row column).Current
  current_escape : m.escape.Current

/-- The cells of a maze and what lies around them are sets of states. -/
structure Maze.OfStates (m : Maze sp) : Prop where
  current_cell : ∀ row column, (cellAt m.cells row column).Current
  current_escape : m.escape.Current

/-- A point holds states of its cell. -/
structure Point.Fits (m : Maze sp) (p : Point sp) : Prop where
  current : p.states.Current
  subset : ∀ i ∈ p.states, i ∈ cellAt m.cells p.row p.column

namespace Maze

variable {g : Game sp} {m : Maze sp}

theorem mem_reach {row top i : Nat} :
    i ∈ m.reach row top ↔ ∃ column, column ≤ top ∧ i ∈ cellAt m.cells row column := by
  rw [reach, StateSet.mem_unionAll]
  constructor
  · rintro ⟨s, hs, hi⟩
    obtain ⟨column, hc, rfl⟩ := List.getElem_of_mem hs
    rw [List.length_take] at hc
    rw [List.getElem_take] at hi
    refine ⟨column, by omega, ?_⟩
    rwa [cellAt, List.getD_eq_getElem]
  · rintro ⟨column, hc, hi⟩
    have hlen : column < (m.row row).length := column_lt_of_mem_cellAt hi
    change i ∈ (m.row row).getD column ∅ at hi
    rw [List.getD_eq_getElem _ _ hlen] at hi
    refine ⟨_, ?_, hi⟩
    rw [List.mem_take_iff_getElem]
    exact ⟨column, by omega, rfl⟩

theorem OfStates.current_target (h : m.OfStates) (row top : Nat) :
    (m.reach row top ∪ m.escape).Current := by
  refine StateSet.DependsOn.union (fun i j hi hj hij ↦ ?_) h.current_escape
  rw [mem_reach, mem_reach]
  exact exists_congr fun column ↦ and_congr_right fun _ ↦ h.current_cell row column i j hi hj hij

namespace Fits

variable (h : m.Fits g)

include h

theorem ofStates : m.OfStates := ⟨h.current_cell, h.current_escape⟩

theorem current_target (row top : Nat) : (m.reach row top ∪ m.escape).Current :=
  h.ofStates.current_target row top

/-- A state lies in one cell. -/
theorem cell_unique {row row' column column' i : Nat} (hi : i ∈ cellAt m.cells row column)
    (hi' : i ∈ cellAt m.cells row' column') : row = row' ∧ column = column' := by
  have hrow : row = row' :=
    (h.digit_marker row column i hi).symm.trans (h.digit_marker row' column' i hi')
  subst hrow
  exact ⟨rfl, h.disjoint row column column' i hi hi'⟩

end Fits

/-- The state `i` lies in some cell. -/
def Inside (m : Maze sp) (i : Nat) : Prop := ∃ row column, i ∈ cellAt m.cells row column

/-- The choice `v` keeps to the order of the cells: from a cell it forces the play into the row and
the columns that the cell leads to, or out of the maze. -/
def Follows (g : Game sp) (m : Maze sp) (v : Nat) : Prop :=
  ∀ p : Point sp, v ∈ cellAt m.cells p.row p.column →
    ∃ row top, m.target? p = some (row, top) ∧ v ∈ g.forcing (m.reach row top ∪ m.escape) ∧
      v ∈ g.entering row

/-- What holds of the committed choices at any time. -/
structure Commits (g : Game sp) (m : Maze sp) (inner : StateSet sp) : Prop where
  functional : g.Functional inner
  mem_envTrans : ∀ v ∈ inner, v ∈ g.envTrans
  follows : ∀ v ∈ inner, m.Follows g v
  answerFree : g.AnswerFree g.envTrans → g.AnswerFree inner

/-! ## Permitted choices -/

section Allowed

variable {inner : StateSet sp} {p : Point sp} {row top : Nat}

theorem mem_allowed (hp : p.states.Current) {v : Nat} :
    v ∈ m.allowed g inner p row top ↔
      v ∈ g.forcing (m.reach row top ∪ m.escape) ∧ v ∈ g.entering row ∧ v ∈ p.states ∧
        (v ∈ inner ∨ v ∉ g.domain inner) := by
  have hdom : v ∈ p.states → (v ∈ g.domain (inner ∩ p.states) ↔ v ∈ g.domain inner) := by
    intro hv
    rw [Game.mem_domain, Game.mem_domain]
    refine and_congr_right fun hlt ↦ ?_
    constructor
    · rintro ⟨w, hw, hwv⟩
      exact ⟨w, (StateSet.mem_inter.mp hw).1, hwv⟩
    · rintro ⟨w, hw, hwv⟩
      refine ⟨w, StateSet.mem_inter.mpr ⟨hw, ?_⟩, hwv⟩
      exact (hp.mem_iff_of_now_eq (StateSet.lt_size hw) hlt hwv).mpr hv
  simp only [allowed, StateSet.mem_union, StateSet.mem_sdiff, StateSet.mem_inter]
  constructor
  · rintro (⟨⟨⟨hf, he⟩, hv⟩, hno⟩ | ⟨⟨⟨hf, he⟩, hv⟩, hin, -⟩)
    · exact ⟨hf, he, hv, Or.inr fun hd ↦ hno ((hdom hv).mpr hd)⟩
    · exact ⟨hf, he, hv, Or.inl hin⟩
  · rintro ⟨hf, he, hv, hin | hno⟩
    · exact Or.inr ⟨⟨⟨hf, he⟩, hv⟩, hin, hv⟩
    · exact Or.inl ⟨⟨⟨hf, he⟩, hv⟩, fun hd ↦ hno ((hdom hv).mp hd)⟩

/-- A choice is permitted for the point that it belongs to. -/
theorem mem_states_of_mem_allowed {v : Nat} (hv : v ∈ m.allowed g inner p row top) :
    v ∈ p.states := by
  rw [allowed] at hv
  rcases StateSet.mem_union.mp hv with hv | hv
  · exact (StateSet.mem_inter.mp (StateSet.mem_sdiff.mp hv).1).2
  · exact (StateSet.mem_inter.mp (StateSet.mem_inter.mp hv).1).2

theorem answerFree_allowed (h : m.Fits g) (hs : g.Shaped) (hp : p.states.Current)
    (hinner : g.AnswerFree inner) (henv : g.AnswerFree g.envTrans) (hrow : row < g.numRows) :
    g.AnswerFree (m.allowed g inner p row top) := by
  have hentering : g.AnswerFree (g.entering row) := by
    intro v hv w hw hvw
    rw [hs.mem_entering hrow] at hv ⊢
    exact ⟨hw, by rw [← hvw _ (hs.twin_marker_not_mem .sys (by decide) true), hv.2]⟩
  have hforcing := ((Game.AnswerFree.forcing henv (h.current_target row top)).inter
    hentering).inter (.of_current hp)
  exact (hforcing.sdiff_current (Game.current_domain _)).union
    (hforcing.inter (hinner.inter (.of_current hp)))

end Allowed

/-! ## The step to one column -/

section StepTo

variable {allowed : StateSet sp} {p : Point sp} {row top column : Nat} {s : Step sp}

/-- The states from which a path goes on elsewhere, and the answers that it does not follow. -/
theorem stepTo?_eq_some (h : m.stepTo? g allowed p row top column = some s) :
    (∃ v, v ∈ allowed ∩ g.landing (cellAt m.cells row column)) ∧
      s.chosen = g.determinize (allowed ∩ g.landing (cellAt m.cells row column)) ∧
      s.movers = g.domain s.chosen ∧
      s.next = ⟨row, column, g.image s.movers s.chosen ∩ cellAt m.cells row column⟩ ∧
      (∀ q ∈ s.spill, q = ⟨p.row, p.column, p.states \ s.movers⟩ ∨
        ∃ c, q = ⟨row, c, g.image s.movers s.chosen ∩ cellAt m.cells row c⟩) ∧
      (∀ i ∈ p.states, i ∉ s.movers → ∃ q ∈ s.spill, i ∈ q.states) ∧
      ∀ c, c ≤ top → c ≠ column →
        ∀ i ∈ g.image s.movers s.chosen, i ∈ cellAt m.cells row c →
          ∃ q ∈ s.spill, i ∈ q.states := by
  unfold stepTo? at h
  change (if (cellAt m.cells row column).isEmpty then none else _) = some s at h
  split at h
  · simp at h
  · dsimp only at h
    split at h
    · simp at h
    · rename_i hne
      change ¬(allowed ∩ g.landing (cellAt m.cells row column)).isEmpty = true at hne
      rw [Bool.not_eq_true, StateSet.isEmpty_eq_false_iff] at hne
      rw [Option.some.injEq] at h
      subst h
      have hnonempty : ∀ {q : Point sp} {i : Nat}, i ∈ q.states → (!q.states.isEmpty) = true :=
        fun hi ↦ by rw [Bool.not_eq_true', StateSet.isEmpty_eq_false_iff]; exact ⟨_, hi⟩
      refine ⟨hne, rfl, rfl, rfl, fun q hq ↦ ?_, fun i hi hno ↦ ?_, fun c hc hcol i hi hcell ↦ ?_⟩
      · rcases List.mem_append.mp (List.mem_filter.mp hq).1 with hq | hq
        · obtain ⟨c, -, rfl⟩ := List.mem_map.mp hq
          exact Or.inr ⟨c, rfl⟩
        · exact Or.inl (List.mem_singleton.mp hq)
      · have hmem : i ∈ p.states \ _ := StateSet.mem_sdiff.mpr ⟨hi, hno⟩
        refine ⟨⟨p.row, p.column, _⟩, List.mem_filter.mpr ⟨?_, hnonempty hmem⟩, hmem⟩
        exact List.mem_append_right _ (List.mem_singleton_self _)
      · have hmem := StateSet.mem_inter.mpr ⟨hi, hcell⟩
        refine ⟨⟨row, c, _⟩, List.mem_filter.mpr ⟨?_, hnonempty hmem⟩, hmem⟩
        refine List.mem_append_left _ (List.mem_map.mpr ⟨c, ?_, rfl⟩)
        rw [List.mem_filter, List.mem_range, bne_iff_ne]
        exact ⟨by omega, hcol⟩

/-- The choices of a step are permitted. -/
theorem mem_allowed_of_mem_chosen (h : m.stepTo? g allowed p row top column = some s) {v : Nat}
    (hv : v ∈ s.chosen) : v ∈ allowed := by
  obtain ⟨-, hchosen, -⟩ := stepTo?_eq_some h
  rw [hchosen] at hv
  exact (StateSet.mem_inter.mp (Game.determinize_subset hv)).1

theorem stepTo?_eq_none (h : (cellAt m.cells row column).Current)
    (hn : m.stepTo? g allowed p row top column = none) {v : Nat} (hv : v ∈ allowed) :
    v ∉ g.landing (cellAt m.cells row column) := by
  intro hland
  unfold stepTo? at hn
  change (if (cellAt m.cells row column).isEmpty then none else _) = none at hn
  split at hn
  · rename_i hempty
    rw [StateSet.isEmpty_iff] at hempty
    obtain ⟨-, w, -, -, hw⟩ := (Game.mem_landing h).mp hland
    exact hempty _ hw
  · dsimp only at hn
    split at hn
    · rename_i hempty
      exact StateSet.isEmpty_iff.mp hempty v (StateSet.mem_inter.mpr ⟨hv, hland⟩)
    · simp at hn

end StepTo

/-! ## The step of a point -/

variable {inner : StateSet sp} {p q : Point sp} {s : Step sp}

/-- A point leads to the cell of another. -/
def Leads (m : Maze sp) (p q : Point sp) : Prop :=
  ∃ top, m.target? p = some (q.row, top) ∧ q.column ≤ top

theorem Leads.of_pos (h : m.Leads p q) (hp : 0 < p.column) :
    q.row = p.row ∧ q.column < p.column := by
  obtain ⟨top, htarget, hle⟩ := h
  rw [target?, if_pos hp, Option.some.injEq, Prod.mk.injEq] at htarget
  exact ⟨htarget.1.symm, by omega⟩

theorem Leads.of_zero (h : m.Leads p q) (hp : p.column = 0) :
    q.row = (p.row + 1) % m.cells.length := by
  obtain ⟨top, htarget, -⟩ := h
  rw [target?, if_neg (by omega)] at htarget
  dsimp only at htarget
  split at htarget
  · simp at htarget
  · rw [Option.some.injEq, Prod.mk.injEq] at htarget
    exact htarget.1.symm

/-- `Leads` looks at rows and columns only, so a point may be narrowed before the next one. -/
theorem Leads.isChain (h : m.Leads p q) {points : List (Point sp)}
    (hchain : (points ++ [p]).IsChain m.Leads) (states : StateSet sp) :
    (points ++ [{ p with states }] ++ [q]).IsChain m.Leads := by
  obtain ⟨hpoints, -, hlast⟩ := List.isChain_append.mp hchain
  refine List.isChain_append.mpr ⟨List.isChain_append.mpr
    ⟨hpoints, List.isChain_singleton _, fun r hr t ht ↦ ?_⟩, List.isChain_singleton _,
    fun r hr t ht ↦ ?_⟩
  · rw [List.head?_cons, Option.mem_some_iff] at ht
    subst ht
    exact hlast r hr p (by rw [List.head?_cons, Option.mem_some_iff])
  · rw [List.getLast?_append, List.getLast?_singleton, Option.some_or, Option.mem_some_iff] at hr
    rw [List.head?_cons, Option.mem_some_iff] at ht
    subst hr ht
    exact h

theorem row_lt_of_target? {row top : Nat} (h : m.target? p = some (row, top))
    (hp : p.row < m.cells.length) : row < m.cells.length := by
  rw [target?] at h
  split at h
  · rw [Option.some.injEq, Prod.mk.injEq] at h
    exact h.1 ▸ hp
  · dsimp only at h
    split at h
    · simp at h
    · rw [Option.some.injEq, Prod.mk.injEq] at h
      exact h.1 ▸ Nat.mod_lt _ (by omega)

/-- A step goes to the highest column that it can. -/
theorem step?_eq_some (h : m.step? g inner p = some s) :
    ∃ row top column, m.target? p = some (row, top) ∧ column ≤ top ∧
      m.stepTo? g (m.allowed g inner p row top) p row top column = some s ∧
      ∀ c, column < c → c ≤ top →
        m.stepTo? g (m.allowed g inner p row top) p row top c = none := by
  unfold step? at h
  split at h
  · simp at h
  · rename_i row top htarget
    obtain ⟨front, column, behind, hlist, hstep, hfront⟩ := List.findSome?_eq_some_iff.mp h
    have hmem : ∀ c, c ∈ (List.range (top + 1)).reverse ↔ c ≤ top := fun c ↦ by
      rw [List.mem_reverse, List.mem_range, Nat.lt_succ_iff]
    have hsorted : (List.range (top + 1)).reverse.Pairwise (· > ·) :=
      List.pairwise_reverse.mpr List.pairwise_lt_range
    rw [hlist, List.pairwise_append, List.pairwise_cons] at hsorted
    refine ⟨row, top, column, htarget, (hmem column).mp ?_, hstep, fun c hc hct ↦ hfront c ?_⟩
    · rw [hlist]
      exact List.mem_append_right _ List.mem_cons_self
    · have hcl := (hmem c).mpr hct
      rw [hlist] at hcl
      rcases List.mem_append.mp hcl with hcl | hcl
      · exact hcl
      · rcases List.mem_cons.mp hcl with rfl | hcl
        · exact absurd hc (Nat.lt_irrefl c)
        · exact absurd hc (Nat.lt_asymm (hsorted.2.1.1 c hcl))

theorem step?_ne_none {row top column v : Nat} (htarget : m.target? p = some (row, top))
    (hcolumn : column ≤ top) (h : (cellAt m.cells row column).Current)
    (hv : v ∈ m.allowed g inner p row top) (hland : v ∈ g.landing (cellAt m.cells row column)) :
    m.step? g inner p ≠ none := by
  intro hnone
  unfold step? at hnone
  rw [htarget] at hnone
  have hc : column ∈ (List.range (top + 1)).reverse := by
    rw [List.mem_reverse, List.mem_range]
    omega
  exact stepTo?_eq_none h (List.findSome?_eq_none_iff.mp hnone column hc) hv hland

theorem leads_of_step? (h : m.step? g inner p = some s) : m.Leads p s.next := by
  obtain ⟨row, top, column, htarget, hcolumn, hstep, -⟩ := step?_eq_some h
  obtain ⟨-, -, -, hnext, -⟩ := stepTo?_eq_some hstep
  rw [hnext]
  exact ⟨top, htarget, hcolumn⟩

/-! ## What a step commits -/

/-- A choice that a step commits is a legal move that forces the play where the point leads to. It
was committed before, or belongs to a state of the point that had no choice. -/
theorem mem_chosen (hp : p.states.Current) (h : m.step? g inner p = some s) {v : Nat}
    (hv : v ∈ s.chosen) : ∃ row top, m.target? p = some (row, top) ∧
      v ∈ g.forcing (m.reach row top ∪ m.escape) ∧ v ∈ g.entering row ∧ v ∈ p.states ∧
        (v ∈ inner ∨ v ∉ g.domain inner) := by
  obtain ⟨row, top, column, htarget, -, hstep, -⟩ := step?_eq_some h
  exact ⟨row, top, htarget, (mem_allowed hp).mp (mem_allowed_of_mem_chosen hstep hv)⟩

/-- A step commits one choice for a state. -/
theorem functional_chosen (h : m.step? g inner p = some s) : g.Functional s.chosen := by
  obtain ⟨row, top, column, -, -, hstep, -⟩ := step?_eq_some h
  obtain ⟨-, hchosen, -⟩ := stepTo?_eq_some hstep
  exact hchosen ▸ Game.functional_determinize _

/-- The committed choices stay a function of the state. -/
theorem functional_step (hp : p.states.Current) (hinner : g.Functional inner)
    (h : m.step? g inner p = some s) : g.Functional (inner ∪ s.chosen) :=
  hinner.union_new (functional_chosen h) fun _ hv ↦ by
    obtain ⟨-, -, -, -, -, -, hnew⟩ := mem_chosen hp h hv
    exact hnew

/-! ## Where a step leads -/

/-- A state of the point that is left moves on or is spilled. -/
theorem mem_movers_or_spilled (h : m.step? g inner p = some s) {i : Nat} (hi : i ∈ p.states) :
    i ∈ s.movers ∨ ∃ q ∈ s.spill, i ∈ q.states := by
  obtain ⟨row, top, column, -, -, hstep, -⟩ := step?_eq_some h
  obtain ⟨-, -, -, -, -, hdropped, -⟩ := stepTo?_eq_some hstep
  exact or_iff_not_imp_left.mpr (hdropped i hi)

/-- The states that move on are those with a choice. -/
theorem movers_eq (h : m.step? g inner p = some s) : s.movers = g.domain s.chosen := by
  obtain ⟨row, top, column, -, -, hstep, -⟩ := step?_eq_some h
  obtain ⟨-, -, hmovers, -⟩ := stepTo?_eq_some hstep
  exact hmovers

theorem exists_mover (h : m.step? g inner p = some s) : ∃ i, i ∈ s.movers := by
  obtain ⟨row, top, column, -, -, hstep, -⟩ := step?_eq_some h
  obtain ⟨⟨v, hv⟩, hchosen, hmovers, -⟩ := stepTo?_eq_some hstep
  obtain ⟨w, hw, -⟩ := Game.exists_mem_determinize hv
  exact ⟨w, hmovers ▸ Game.mem_domain_of_mem (hchosen ▸ hw)⟩

theorem movers_subset (hp : p.states.Current) (h : m.step? g inner p = some s) {i : Nat}
    (hi : i ∈ s.movers) : i ∈ p.states := by
  rw [movers_eq h] at hi
  obtain ⟨hlt, w, hw, hwi⟩ := Game.mem_domain.mp hi
  obtain ⟨-, -, -, -, -, hwp, -⟩ := mem_chosen hp h hw
  exact (hp.mem_iff_of_now_eq (StateSet.lt_size hw) hlt hwi).mp hwp

/-- Points of sets of states lead to such points. -/
theorem current_step (hcells : ∀ row column, (cellAt m.cells row column).Current)
    (hp : p.states.Current) (h : m.step? g inner p = some s) :
    s.movers.Current ∧ s.next.states.Current ∧ ∀ q ∈ s.spill, q.states.Current := by
  have hmovers : s.movers.Current := movers_eq h ▸ Game.current_domain _
  obtain ⟨row, top, column, -, -, hstep, -⟩ := step?_eq_some h
  obtain ⟨-, -, -, hnext, hspill, -⟩ := stepTo?_eq_some hstep
  refine ⟨hmovers, ?_, fun q hq ↦ ?_⟩
  · rw [hnext]
    exact (Game.current_image _ _).inter (hcells _ _)
  · rcases hspill q hq with rfl | ⟨c, rfl⟩
    · exact hp.sdiff hmovers
    · exact (Game.current_image _ _).inter (hcells _ _)

/-- Points in their cells lead to such points. -/
theorem fits_step (hm : m.OfStates) (hp : p.Fits m) (h : m.step? g inner p = some s) :
    s.next.Fits m ∧ ∀ q ∈ s.spill, q.Fits m := by
  obtain ⟨-, hcurrent, hspilled⟩ := current_step hm.current_cell hp.current h
  obtain ⟨row, top, column, -, -, hstep, -⟩ := step?_eq_some h
  obtain ⟨-, -, -, hnext, hspill, -⟩ := stepTo?_eq_some hstep
  refine ⟨⟨hcurrent, fun i hi ↦ ?_⟩, fun q hq ↦ ⟨hspilled q hq, fun i hi ↦ ?_⟩⟩
  · rw [hnext] at hi ⊢
    exact (StateSet.mem_inter.mp hi).2
  · rcases hspill q hq with rfl | ⟨c, rfl⟩
    · exact hp.subset i (StateSet.mem_sdiff.mp hi).1
    · exact (StateSet.mem_inter.mp hi).2

/-- **Every answer to a choice of a step is accounted for.** -/
theorem answered_step (hm : m.OfStates) (hp : p.states.Current) (h : m.step? g inner p = some s)
    {v : Nat} (hv : v ∈ s.chosen) (hsys : v ∈ g.sysTrans) :
    sp.next v ∈ m.escape ∨ sp.next v ∈ s.next.states ∨ ∃ q ∈ s.spill, sp.next v ∈ q.states := by
  obtain ⟨row, top, column, -, -, hstep, -⟩ := step?_eq_some h
  obtain ⟨-, -, hmovers, hnext, -, -, hothers⟩ := stepTo?_eq_some hstep
  have himage : sp.next v ∈ g.image s.movers s.chosen :=
    Game.next_mem_image (hmovers ▸ Game.mem_domain_of_mem hv) hv hsys
  obtain ⟨hforce, -⟩ := (mem_allowed hp).mp (mem_allowed_of_mem_chosen hstep hv)
  have htarget := ((Game.mem_forcing (hm.current_target row top)).mp hforce).2 v hsys
    (Space.AgreeOff.refl _ v)
  rcases StateSet.mem_union.mp htarget with hreach | hescape
  · obtain ⟨c, hc, hcell⟩ := mem_reach.mp hreach
    by_cases hcol : c = column
    · subst hcol
      rw [hnext]
      exact Or.inr (Or.inl (StateSet.mem_inter.mpr ⟨himage, hcell⟩))
    · exact Or.inr (Or.inr (hothers c hc hcol _ himage hcell))
  · exact Or.inl hescape

/-- What a step leads to was there before, or is an answer to one of its choices. -/
theorem origin_step (h : m.step? g inner p = some s) {i : Nat}
    (hi : i ∈ s.next.states ∨ ∃ q ∈ s.spill, i ∈ q.states) :
    i ∈ p.states ∨ ∃ v ∈ s.movers, v ∈ s.chosen ∧ v ∈ g.sysTrans ∧ sp.next v = sp.now i := by
  obtain ⟨row, top, column, -, -, hstep, -⟩ := step?_eq_some h
  obtain ⟨-, -, -, hnext, hspill, -⟩ := stepTo?_eq_some hstep
  have himage : ∀ j ∈ g.image s.movers s.chosen,
      ∃ w ∈ s.movers, w ∈ s.chosen ∧ w ∈ g.sysTrans ∧ sp.next w = sp.now j := fun j hj ↦
    (Game.mem_image.mp hj).2
  rcases hi with hi | ⟨q, hq, hi⟩
  · rw [hnext] at hi
    exact Or.inr (himage i (StateSet.mem_inter.mp hi).1)
  · rcases hspill q hq with rfl | ⟨c, rfl⟩
    · exact Or.inl (StateSet.mem_sdiff.mp hi).1
    · exact Or.inr (himage i (StateSet.mem_inter.mp hi).1)

end Maze

/-! ## Sound steps -/

/-- What a step does with the committed choices, with its point and with the answers. -/
structure Step.Sound (g : Game sp) (m : Maze sp) (inner : StateSet sp) (p : Point sp)
    (s : Step sp) : Prop where
  leads : m.Leads p s.next
  exists_mover : ∃ i, i ∈ s.movers
  movers_eq : s.movers = g.domain s.chosen
  movers_subset : ∀ i ∈ s.movers, i ∈ p.states
  commits : m.Commits g (inner ∪ s.chosen)
  inside : ∀ v ∈ s.chosen, m.Inside v
  next_fits : s.next.Fits m
  spill_fits : ∀ q ∈ s.spill, q.Fits m
  dropped : ∀ i ∈ p.states, i ∉ s.movers → ∃ q ∈ s.spill, i ∈ q.states
  answered : ∀ v ∈ s.chosen, v ∈ g.sysTrans → sp.next v ∈ m.escape ∨ sp.next v ∈ s.next.states ∨
    ∃ q ∈ s.spill, sp.next v ∈ q.states
  origin : ∀ i, i ∈ s.next.states ∨ (∃ q ∈ s.spill, i ∈ q.states) → i ∈ p.states ∨
    ∃ v ∈ s.movers, v ∈ s.chosen ∧ v ∈ g.sysTrans ∧ sp.next v = sp.now i

namespace Maze

variable {g : Game sp} {m : Maze sp} {inner : StateSet sp} {p : Point sp} {s : Step sp}

private theorem commits_union {row top : Nat} {chosen : StateSet sp} (hs : g.Shaped)
    (hm : m.Fits g) (hp : p.Fits m) (hk : m.Commits g inner)
    (htarget : m.target? p = some (row, top)) (hrow : row < g.numRows)
    (hchosen : ∀ v ∈ chosen, v ∈ m.allowed g inner p row top)
    (hfun : g.Functional (inner ∪ chosen))
    (hfree : g.AnswerFree (m.allowed g inner p row top) → g.AnswerFree chosen) :
    m.Commits g (inner ∪ chosen) where
  functional := hfun
  mem_envTrans := by
    intro v hv
    rcases StateSet.mem_union.mp hv with hv | hv
    · exact hk.mem_envTrans v hv
    · obtain ⟨hforce, -⟩ := (mem_allowed hp.current).mp (hchosen v hv)
      exact ((Game.mem_forcing (hm.current_target row top)).mp hforce).1
  follows := by
    intro v hv
    rcases StateSet.mem_union.mp hv with hv | hv
    · exact hk.follows v hv
    · intro q hq
      obtain ⟨hforce, hentering, hvp, -⟩ := (mem_allowed hp.current).mp (hchosen v hv)
      -- the cell of `q` is that of `p`, and only the cell matters for the target
      obtain ⟨hqrow, hqcolumn⟩ := hm.cell_unique hq (hp.subset v hvp)
      refine ⟨row, top, ?_, hforce, hentering⟩
      rw [← htarget, target?, target?, hqrow, hqcolumn]
  answerFree := fun henv ↦ (hk.answerFree henv).union
    (hfree (answerFree_allowed hm hs hp.current (hk.answerFree henv) henv hrow))

/-- **Every step is sound.** -/
theorem sound_of_step? (hs : g.Shaped) (hm : m.Fits g) (hp : p.Fits m) (hk : m.Commits g inner)
    (h : m.step? g inner p = some s) : s.Sound g m inner p := by
  obtain ⟨row, top, column, htarget, -, hstep, -⟩ := step?_eq_some h
  obtain ⟨-, hchosen, -⟩ := stepTo?_eq_some hstep
  obtain ⟨hnext, hspill⟩ := fits_step hm.ofStates hp h
  have hsubset : ∀ i ∈ s.movers, i ∈ p.states := fun _ ↦ movers_subset hp.current h
  obtain ⟨i, hi⟩ := exists_mover h
  have hrow : row < g.numRows := hm.length_cells ▸ row_lt_of_target? htarget
    (row_lt_of_mem_cellAt (hp.subset i (hsubset i hi)))
  exact {
    leads := leads_of_step? h
    exists_mover := ⟨i, hi⟩
    movers_eq := movers_eq h
    movers_subset := hsubset
    commits := commits_union hs hm hp hk htarget hrow (fun _ ↦ mem_allowed_of_mem_chosen hstep)
      (functional_step hp.current hk.functional h)
      (fun hfree ↦ hchosen ▸ Game.answerFree_determinize
        (hfree.inter (Game.AnswerFree.landing (hm.current_cell row column))))
    inside := fun w hw ↦ by
      obtain ⟨-, -, -, -, -, hwp, -⟩ := mem_chosen hp.current h hw
      exact ⟨p.row, p.column, hp.subset w hwp⟩
    next_fits := hnext
    spill_fits := hspill
    dropped := fun _ hi ↦ (mem_movers_or_spilled h hi).resolve_left
    answered := fun _ ↦ answered_step hm.ofStates hp.current h
    origin := fun _ ↦ origin_step h }

/-- If moves do not depend on answers, a step arrives somewhere. -/
theorem exists_mem_next (hs : g.Shaped) (hm : m.Fits g) (hp : p.Fits m) (hk : m.Commits g inner)
    (henv : g.AnswerFree g.envTrans) (h : m.step? g inner p = some s) :
    ∃ i, i ∈ s.next.states := by
  have hsound := sound_of_step? hs hm hp hk h
  obtain ⟨row, top, column, htarget, -, hstep, -⟩ := step?_eq_some h
  obtain ⟨⟨v, hv⟩, hchosen, hmovers, hnext, -⟩ := stepTo?_eq_some hstep
  obtain ⟨w, hw, hwv⟩ := Game.exists_mem_determinize (g := g) hv
  obtain ⟨i, hi⟩ := hsound.exists_mover
  have hrow : row < g.numRows := hm.length_cells ▸ row_lt_of_target? htarget
    (row_lt_of_mem_cellAt (hp.subset i (hsound.movers_subset i hi)))
  have hland := (StateSet.mem_inter.mp (Game.determinize_subset hw)).2
  obtain ⟨-, u, hu, hwu, hcell⟩ := (Game.mem_landing (hm.current_cell row column)).mp hland
  have hfree : g.AnswerFree s.chosen := hchosen ▸ Game.answerFree_determinize
    ((answerFree_allowed hm hs hp.current (hk.answerFree henv) henv hrow).inter
      (Game.AnswerFree.landing (hm.current_cell row column)))
  have huc : u ∈ s.chosen := hfree w (hchosen ▸ hw) u (StateSet.lt_size hu) hwu
  refine ⟨sp.next u, ?_⟩
  rw [hnext]
  exact StateSet.mem_inter.mpr
    ⟨Game.next_mem_image (hmovers ▸ Game.mem_domain_of_mem huc) huc hu, hcell⟩

end Maze

/-! ## A roundabout -/

/-- The cells of the game of turns: in row 0 the environment has to set its bit, in row 1 it has to
clear it. -/
def Maze.roundabout : Maze bits where
  rank := 0
  cells := [[.literal ⟨4⟩ 0 ∩ .literal ⟨0⟩ 1, .literal ⟨4⟩ 0 ∩ .literal ⟨0⟩ 0],
    [.literal ⟨4⟩ 1 ∩ .literal ⟨0⟩ 0, .literal ⟨4⟩ 1 ∩ .literal ⟨0⟩ 1]]
  escape := ∅

theorem Maze.ofStates_roundabout : roundabout.OfStates where
  current_cell := current_cellAt fun cells hcells s hs ↦ by
    rcases List.mem_pair.mp hcells with rfl | rfl <;> rcases List.mem_pair.mp hs with rfl | rfl <;>
      exact .inter (.literal (by decide) (by decide) _) (.literal (by decide) (by decide) _)
  current_escape := .empty _

end JusticeViolation

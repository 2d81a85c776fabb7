import JusticeViolation.Game
import JusticeViolation.Proofs.StateSet.Dependence

/-!
# What an accepted game promises

A game without a shape fault has a row marker that is a current copy with one value for each row,
relations that do not mention it, a progress matrix with a full set of rows for every rank, and
ranks that grow. `Game.Shaped` lists these promises, and a game that keeps them is accepted; the
constructions are only ever run on such games.
-/

namespace JusticeViolation

namespace Space

variable {sp : Space}

theorem domainSize_le_size {x : VarId} (hx : x ∈ sp.registry.ids) : sp.domainSize x ≤ sp.size := by
  rw [Registry.mem_ids, ← length_sizes] at hx
  have hmem : sp.domainSize x ∈ sp.sizes := by
    rw [domainSize, List.getD_eq_getElem _ _ hx]
    exact List.getElem_mem hx
  have hpos : 0 < sp.sizes.prod :=
    List.prod_pos fun n hn ↦ Registry.pos_of_mem_sizes (sp.sizes_eq ▸ hn)
  rw [sp.size_eq]
  exact Nat.le_of_dvd hpos (List.dvd_prod hmem)

end Space

namespace Game

variable {sp : Space} {g : Game sp}

/-! ## Ranks and layers by number -/

/-- The states of a rank and of those below it. -/
def rank (g : Game sp) (r : Nat) : StateSet sp := g.ranks.getD r ∅

/-- The states of the ranks below a rank. -/
def below (g : Game sp) : Nat → StateSet sp
  | 0 => ∅
  | r + 1 => g.rank r

/-- The layers of progress of one row of a rank. -/
def layers (g : Game sp) (r row : Nat) : List (StateSet sp) := (g.progress.getD r []).getD row []

/-- One layer of progress. -/
def layer (g : Game sp) (r row column : Nat) : StateSet sp := (g.layers r row).getD column ∅

/-- `i` is in the layer of a column, and in none before it. -/
def FirstIn (g : Game sp) (r row column i : Nat) : Prop :=
  i ∈ g.layer r row column ∧ ∀ k, k < column → i ∉ g.layer r row k

theorem FirstIn.unique {r row c d i : Nat} (hc : g.FirstIn r row c i) (hd : g.FirstIn r row d i) :
    c = d := by
  rcases Nat.lt_trichotomy c d with h | h | h
  · exact absurd hc.1 (hd.2 c h)
  · exact h
  · exact absurd hd.1 (hc.2 d h)

theorem FirstIn.column_lt {r row c i : Nat} (h : g.FirstIn r row c i) :
    c < (g.layers r row).length := by
  by_contra hc
  have hmem := h.1
  rw [layer, List.getD_eq_default _ _ (Nat.not_lt.mp hc)] at hmem
  exact StateSet.not_mem_empty i hmem

/-- What is in some layer of a row is first in one of them. -/
theorem exists_firstIn {r row c i : Nat} (h : i ∈ g.layer r row c) :
    ∃ k, k ≤ c ∧ g.FirstIn r row k i := by
  classical
  have hex : ∃ k, i ∈ g.layer r row k := ⟨c, h⟩
  exact ⟨Nat.find hex, Nat.find_min' hex h, Nat.find_spec hex, fun k hk ↦ Nat.find_min hex hk⟩

/-! ## The promises -/

/-- What a game without a shape fault promises. -/
structure Shaped (g : Game sp) : Prop where
  numRows_pos : 0 < g.numRows
  marker_mem : g.marker ∈ sp.registry.ids
  marker_current : g.marker.isPrimed = false
  marker_aux : (sp.registry.declaration? g.marker).any (·.role == .aux) = true
  domainSize_marker : sp.domainSize g.marker = g.numRows
  initial_bare : g.initial.DependsOn (· ≠ g.marker)
  envTrans_bare : g.envTrans.DependsOn (· ≠ g.marker)
  sysTrans_bare : g.sysTrans.DependsOn (· ≠ g.marker)
  length_progress : g.progress.length = g.ranks.length
  length_matrix : ∀ matrix ∈ g.progress, matrix.length = g.numRows
  row_ne_nil : ∀ matrix ∈ g.progress, ∀ row ∈ matrix, row ≠ []
  rank_subset : ∀ r, r + 1 < g.ranks.length → ∀ i, i ∈ g.rank r → i ∈ g.rank (r + 1)

private theorem ite_some_eq_none_iff {α : Type} {p : Prop} [Decidable p] {a : α} {x : Option α} :
    (if p then some a else x) = none ↔ ¬p ∧ x = none := by
  by_cases h : p
  · simp [h]
  · simp [h]

theorem markerFault?_eq_none_iff :
    g.markerFault? = none ↔ g.marker.index < sp.registry.length ∧ g.marker.isPrimed = false ∧
      ∃ v, sp.registry.declaration? g.marker = some v ∧ v.role = .aux ∧ v.size = g.numRows ∧
        ∀ s ∈ [g.initial, g.envTrans, g.sysTrans], g.marker ∉ s.support := by
  rw [markerFault?, ite_some_eq_none_iff, Bool.or_eq_true, decide_eq_true_iff, not_or, Nat.not_le,
    Bool.not_eq_true, and_assoc]
  refine and_congr_right fun _ ↦ and_congr_right fun _ ↦ ?_
  cases sp.registry.declaration? g.marker with
  | none => simp
  | some v =>
    dsimp only
    rw [ite_some_eq_none_iff, ite_some_eq_none_iff, Bool.or_eq_true, not_or, bne_iff_ne, bne_iff_ne,
      Ne, Ne, not_not, not_not, and_iff_left rfl, List.any_eq_true, and_assoc]
    simp only [Option.some.injEq, exists_eq_left', List.contains_iff_mem, not_exists, not_and]

theorem progressFault?_eq_none_iff :
    g.progressFault? = none ↔ g.progress.length = g.ranks.length ∧
      ∀ matrix ∈ g.progress, matrix.length = g.numRows ∧ ∀ row ∈ matrix, row ≠ [] := by
  have hmatrix : ∀ r matrix, g.matrixFault? r matrix = none ↔
      matrix.length = g.numRows ∧ ∀ row ∈ matrix, row ≠ [] := by
    intro r matrix
    rw [matrixFault?, ite_some_eq_none_iff, bne_iff_ne, Ne, not_not, Option.map_eq_none_iff,
      List.findIdx?_eq_none_iff]
    simp only [List.isEmpty_eq_false_iff]
  rw [progressFault?, ite_some_eq_none_iff, bne_iff_ne, Ne, not_not, List.findSome?_eq_none_iff]
  refine and_congr_right fun _ ↦ ?_
  constructor
  · intro hall matrix hm
    obtain ⟨r, hr, hrm⟩ := List.getElem_of_mem hm
    have hmem : (matrix, r) ∈ g.progress.zipIdx :=
      List.mem_zipIdx_iff_getElem?.mpr (List.getElem?_eq_some_iff.mpr ⟨hr, hrm⟩)
    exact (hmatrix r matrix).mp (hall _ hmem)
  · rintro hall ⟨matrix, r⟩ hm
    exact (hmatrix r matrix).mpr (hall matrix (List.fst_mem_of_mem_zipIdx hm))

theorem rankFault?_eq_none_iff :
    g.rankFault? = none ↔
      ∀ r, r + 1 < g.ranks.length → ∀ i, i ∈ g.rank r → i ∈ g.rank (r + 1) := by
  have hlength : (g.ranks.zip g.ranks.tail).length = g.ranks.length - 1 := by
    rw [List.length_zip, List.length_tail]
    omega
  have hrank : ∀ r (hr : r < g.ranks.length), g.rank r = g.ranks[r] := fun r hr ↦
    List.getD_eq_getElem _ _ hr
  have htest : g.rankFault? = none ↔ ∀ l ∈ g.ranks.zip g.ranks.tail, ∀ i ∈ l.1, i ∈ l.2 := by
    rw [rankFault?, ite_eq_left_iff]
    simp only [reduceCtorEq, imp_false, not_not, List.all_eq_true, StateSet.subset_iff]
  rw [htest]
  constructor
  · intro hall r hr i hi
    have hr' : r < g.ranks.length := Nat.lt_of_succ_lt hr
    have hlt : r < (g.ranks.zip g.ranks.tail).length := by omega
    have hmem := List.getElem_mem hlt
    rw [List.getElem_zip, List.getElem_tail] at hmem
    rw [hrank r hr'] at hi
    rw [hrank (r + 1) hr]
    exact hall _ hmem i hi
  · intro hall l hl i hi
    obtain ⟨r, hlt, rfl⟩ := List.mem_iff_getElem.mp hl
    have hr : r + 1 < g.ranks.length := by omega
    have hr' : r < g.ranks.length := Nat.lt_of_succ_lt hr
    have hstep := hall r hr i
    rw [hrank r hr', hrank (r + 1) hr] at hstep
    rw [List.getElem_zip, List.getElem_tail] at hi ⊢
    exact hstep hi

/-- **What the shape check establishes**, no more and no less. -/
theorem shapeFault?_eq_none_iff : g.shapeFault? = none ↔ g.Shaped := by
  have hsize : ∀ v, sp.registry.declaration? g.marker = some v →
      sp.domainSize g.marker = v.size := by
    intro v hv
    rw [Registry.declaration?] at hv
    rw [Space.domainSize, sp.sizes_eq, Registry.getD_sizes, hv, Option.map_some, Option.getD_some]
  rw [shapeFault?, ite_some_eq_none_iff]
  change _ ∧ (g.markerFault? <|> (g.progressFault? <|> g.rankFault?)) = none ↔ _
  rw [Option.orElse_eq_none, Option.orElse_eq_none, markerFault?_eq_none_iff,
    progressFault?_eq_none_iff, rankFault?_eq_none_iff, ← Registry.mem_ids]
  constructor
  · rintro ⟨hpos, ⟨hid, hcur, v, hv, haux, hrows, hmention⟩, ⟨hlen, hmatrix⟩, hranks⟩
    have hbare : ∀ s ∈ [g.initial, g.envTrans, g.sysTrans], s.DependsOn (· ≠ g.marker) :=
      fun s hs ↦ (StateSet.dependsOn_ne_iff hid).mpr (hmention s hs)
    exact {
      numRows_pos := Nat.pos_of_ne_zero hpos
      marker_mem := hid
      marker_current := hcur
      marker_aux := by rw [hv, Option.any_some, haux, beq_self_eq_true]
      domainSize_marker := (hsize v hv).trans hrows
      initial_bare := hbare _ (by simp)
      envTrans_bare := hbare _ (by simp)
      sysTrans_bare := hbare _ (by simp)
      length_progress := hlen
      length_matrix := fun matrix hm ↦ (hmatrix matrix hm).1
      row_ne_nil := fun matrix hm ↦ (hmatrix matrix hm).2
      rank_subset := hranks }
  · intro h
    obtain ⟨v, hv, haux⟩ := (Option.any_eq_true _ _).mp h.marker_aux
    refine ⟨Nat.ne_of_gt h.numRows_pos, ⟨h.marker_mem, h.marker_current, v, hv, beq_iff_eq.mp haux,
      (hsize v hv).symm.trans h.domainSize_marker, fun s hs ↦ ?_⟩,
      ⟨h.length_progress, fun matrix hm ↦ ⟨h.length_matrix matrix hm, h.row_ne_nil matrix hm⟩⟩,
      h.rank_subset⟩
    rw [← StateSet.dependsOn_ne_iff h.marker_mem]
    rcases List.mem_cons.mp hs with rfl | hs
    · exact h.initial_bare
    rcases List.mem_pair.mp hs with rfl | rfl
    · exact h.envTrans_bare
    · exact h.sysTrans_bare

theorem shaped_of_shapeFault?_eq_none (h : g.shapeFault? = none) : g.Shaped :=
  shapeFault?_eq_none_iff.mp h

namespace Shaped

variable (h : g.Shaped)

include h

theorem numRows_lt : g.numRows < 2 ^ 32 := by
  have hle := Space.domainSize_le_size h.marker_mem
  have hlim := sp.size_le
  rw [h.domainSize_marker] at hle
  unfold Space.limit at hlim
  omega

theorem rowMarkerWord_eq {row : Nat} (hrow : row < g.numRows) : rowMarkerWord row = row :=
  rowMarkerWord_of_lt (hrow.trans h.numRows_lt)

theorem digit_marker_lt (i : Nat) : sp.digit i g.marker < g.numRows := by
  rw [← h.domainSize_marker]
  exact sp.digit_lt i g.marker

theorem twin_marker_mem : g.marker.twin ∈ sp.registry.ids := sp.registry.twin_mem_ids h.marker_mem

theorem rank_mono {r s : Nat} (hrs : r ≤ s) (hs : s < g.ranks.length) {i : Nat}
    (hi : i ∈ g.rank r) : i ∈ g.rank s := by
  induction s with
  | zero => rwa [Nat.le_zero.mp hrs] at hi
  | succ s ih =>
    rcases Nat.lt_or_ge r (s + 1) with hlt | hge
    · exact h.rank_subset s hs i (ih (Nat.lt_succ_iff.mp hlt) (by omega))
    · rwa [Nat.le_antisymm hrs hge] at hi

theorem layers_ne_nil {r row : Nat} (hr : r < g.ranks.length) (hrow : row < g.numRows) :
    g.layers r row ≠ [] := by
  have hr' : r < g.progress.length := by rw [h.length_progress]; exact hr
  have hmat := List.getElem_mem hr'
  have hrow' : row < (g.progress[r]).length := by rw [h.length_matrix _ hmat]; exact hrow
  rw [layers, List.getD_eq_getElem _ _ hr', List.getD_eq_getElem _ _ hrow']
  exact h.row_ne_nil _ hmat _ (List.getElem_mem hrow')

end Shaped

end Game

end JusticeViolation

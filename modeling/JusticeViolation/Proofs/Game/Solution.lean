import JusticeViolation.Proofs.Game.Commitment

/-!
# What is assumed of a game

The shape check leaves open what the sets of a game speak of. A memo written by a solver has initial
states, ranks and layers that speak of the present state alone and not of rows. In a *two-player*
game there is no variable beside those of the players and the row marker, and a move of the
environment does not depend on the answer. The layers of a *solved* game come with the moves that
justify them.
-/

namespace JusticeViolation

namespace Game

variable {sp : Space} {g : Game sp}

/-! ## Sets of states -/

/-- The sets of a game speak of the present state alone, and not of its row. -/
structure OfStates (g : Game sp) : Prop where
  initial : g.initial.Untagged g.marker
  ranks : ∀ s ∈ g.ranks, s.Untagged g.marker
  layers : ∀ matrix ∈ g.progress, ∀ row ∈ matrix, ∀ s ∈ row, s.Untagged g.marker

namespace OfStates

variable (h : g.OfStates)

include h

theorem untagged_rank (r : Nat) : (g.rank r).Untagged g.marker := by
  rw [rank, List.getD_eq_getElem?_getD]
  cases hr : g.ranks[r]? with
  | none => exact .empty _
  | some s => exact h.ranks s (List.mem_of_getElem? hr)

theorem untagged_below (r : Nat) : (g.below r).Untagged g.marker := by
  cases r with
  | zero => exact .empty _
  | succ r => exact h.untagged_rank r

theorem untagged_layers {r row : Nat} {s : StateSet sp} (hs : s ∈ g.layers r row) :
    s.Untagged g.marker := by
  rw [Game.layers, List.getD_eq_getElem?_getD] at hs
  cases hrow : (g.progress.getD r [])[row]? with
  | none =>
    rw [hrow, Option.getD_none] at hs
    exact absurd hs List.not_mem_nil
  | some layers =>
    rw [hrow, Option.getD_some] at hs
    rw [List.getD_eq_getElem?_getD] at hrow
    cases hr : g.progress[r]? with
    | none =>
      rw [hr, Option.getD_none, List.getElem?_nil] at hrow
      simp at hrow
    | some matrix =>
      rw [hr, Option.getD_some] at hrow
      exact h.layers matrix (List.mem_of_getElem? hr) layers (List.mem_of_getElem? hrow) s hs

theorem untagged_layer (r row column : Nat) : (g.layer r row column).Untagged g.marker := by
  rw [layer, List.getD_eq_getElem?_getD]
  cases hc : (g.layers r row)[column]? with
  | none => exact .empty _
  | some s => exact h.untagged_layers (List.mem_of_getElem? hc)

theorem firstIn_congr {r row column i j : Nat} (hi : i < sp.size) (hj : j < sp.size)
    (hij : sp.bare g.marker i = sp.bare g.marker j) :
    g.FirstIn r row column i ↔ g.FirstIn r row column j := by
  have hlayer : ∀ k, i ∈ g.layer r row k ↔ j ∈ g.layer r row k := fun k ↦
    (h.untagged_layer r row k).mem_iff_of_bare_eq hi hj hij
  unfold FirstIn
  rw [hlayer]
  refine and_congr_right fun _ ↦ forall₂_congr fun k _ ↦ not_congr (hlayer k)

end OfStates

/-! ## Two players -/

/-- Beside the row marker, every variable belongs to a player, and the environment moves first. -/
structure TwoPlayer (g : Game sp) : Prop extends OfStates g where
  aux : ∀ x ∈ sp.registry.ids, (sp.registry.declaration? x).any (·.role == .aux) = true →
    x = g.marker ∨ x = g.marker.twin
  envTrans : g.envTrans.DependsOn fun x ↦
    (x.isPrimed = false ∧ x ≠ g.marker) ∨ x ∈ g.envNextIds
  sysTrans : g.sysTrans.DependsOn fun x ↦
    (x.isPrimed = false ∧ x ≠ g.marker) ∨ x ∈ g.envNextIds ∨ x ∈ g.sysNextIds

private theorem Shaped.not_mem_roleIds (h : g.Shaped) {x : VarId}
    (hx : sp.registry.declaration? x = sp.registry.declaration? g.marker) {role : Role}
    (hrole : role ≠ .aux) (primed : Bool) : x ∉ sp.registry.roleIds role primed := by
  intro hmem
  rw [Registry.roleIds, List.mem_filter, Bool.and_eq_true, hx] at hmem
  have haux := h.marker_aux
  cases hv : sp.registry.declaration? g.marker with
  | none =>
    rw [hv] at haux
    simp at haux
  | some v =>
    rw [hv, Option.any_some] at haux hmem
    exact hrole ((beq_iff_eq.mp hmem.2.2).symm.trans (beq_iff_eq.mp haux))

/-- The row marker belongs to no player. -/
theorem Shaped.marker_not_mem (h : g.Shaped) (role : Role) (hrole : role ≠ .aux)
    (primed : Bool) : g.marker ∉ sp.registry.roleIds role primed :=
  h.not_mem_roleIds rfl hrole primed

/-- Nor does the twin of the row marker. -/
theorem Shaped.twin_marker_not_mem (h : g.Shaped) (role : Role) (hrole : role ≠ .aux)
    (primed : Bool) : g.marker.twin ∉ sp.registry.roleIds role primed := by
  refine h.not_mem_roleIds ?_ hrole primed
  rw [Registry.declaration?, Registry.declaration?, VarId.index_twin_div]

theorem Shaped.ne_twin_of_current (h : g.Shaped) {x : VarId} (hx : x.isPrimed = false) :
    x ≠ g.marker.twin := by
  rintro rfl
  simp [VarId.isPrimed_twin, h.marker_current] at hx

theorem Shaped.ne_twin_of_mem (h : g.Shaped) {role : Role} (hrole : role ≠ .aux) {x : VarId}
    (hx : x ∈ sp.registry.roleIds role true) : x ≠ g.marker.twin := fun heq ↦
  h.twin_marker_not_mem role hrole true (heq ▸ hx)

namespace TwoPlayer

variable (h : g.TwoPlayer)

include h

/-- A move of the environment does not depend on the row that is entered. -/
theorem put_twin_mem_envTrans (hs : g.Shaped) {v row : Nat}
    (hrow : row < sp.domainSize g.marker.twin) (hv : v < sp.size) :
    sp.put v g.marker.twin row ∈ g.envTrans ↔ v ∈ g.envTrans := by
  refine h.envTrans _ v (Space.put_lt hrow) hv fun x hx ↦ Space.digit_put_of_ne hrow ?_
  rcases hx with hx | hx
  · exact hs.ne_twin_of_current hx.1
  · exact hs.ne_twin_of_mem (by decide) hx

/-- Nor does an answer of the system. -/
theorem put_twin_mem_sysTrans (hs : g.Shaped) {v row : Nat}
    (hrow : row < sp.domainSize g.marker.twin) (hv : v < sp.size) :
    sp.put v g.marker.twin row ∈ g.sysTrans ↔ v ∈ g.sysTrans := by
  refine h.sysTrans _ v (Space.put_lt hrow) hv fun x hx ↦ Space.digit_put_of_ne hrow ?_
  rcases hx with hx | hx | hx
  · exact hs.ne_twin_of_current hx.1
  · exact hs.ne_twin_of_mem (by decide) hx
  · exact hs.ne_twin_of_mem (by decide) hx

/-- A move of the environment stays one whatever the system answers. -/
theorem answerFree_envTrans : g.AnswerFree g.envTrans := by
  intro v hv w hw hvw
  refine (h.envTrans v w (StateSet.lt_size hv) hw fun x hx ↦ ?_).mp hv
  rcases hx with hx | hx
  · exact Space.now_eq_iff.mp hvw.now_eq x hx.1
  · exact hvw.sameMove x hx

end TwoPlayer

/-! ## Solved games -/

/-- In every row, the layers of a rank hold all its states that are in no lower rank. -/
def RowsCover (g : Game sp) : Prop :=
  ∀ r row i, r < g.numRanks → row < g.numRows → i ∈ g.rank r → i ∉ g.below r →
    ∃ k, i ∈ g.layer r row k

/-- In the state `i` the environment has a move all of whose legal answers lead into `target`. -/
def CanForce (g : Game sp) (i : Nat) (target : Nat → Prop) : Prop :=
  ∃ v ∈ g.envTrans, sp.now v = sp.now i ∧ ∀ w ∈ g.sysTrans, g.SameChoice v w → target (sp.next w)

/-- The environment can choose the row that it enters as well. -/
theorem CanForce.exists_entering {i row : Nat} {target : Nat → Prop} (h : g.CanForce i target)
    (hs : g.Shaped) (ht : g.TwoPlayer) (hrow : row < g.numRows)
    (hbare : ∀ j k, j < sp.size → k < sp.size → sp.bare g.marker j = sp.bare g.marker k →
      target j → target k) :
    ∃ v ∈ g.envTrans, sp.now v = sp.now i ∧ v ∈ g.entering row ∧ ∀ w ∈ g.sysTrans,
      g.SameChoice v w → sp.digit (sp.next w) g.marker = row ∧ target (sp.next w) := by
  obtain ⟨v, hv, hvi, hall⟩ := h
  have htag : row < sp.domainSize g.marker.twin := by
    rwa [Space.domainSize_twin, hs.domainSize_marker]
  refine ⟨sp.put v g.marker.twin row,
    (ht.put_twin_mem_envTrans hs htag (StateSet.lt_size hv)).mpr hv, ?_,
    (hs.mem_entering hrow).mpr ⟨Space.put_lt htag, Space.digit_put_self htag⟩,
    fun w hw hvw ↦ ⟨?_, ?_⟩⟩
  · rw [← hvi]
    exact Space.now_eq_iff.mpr fun x hx ↦ Space.digit_put_of_ne htag (hs.ne_twin_of_current hx)
  · rw [Space.digit_next_of_current hs.marker_current,
      ← hvw g.marker.twin (hs.twin_marker_not_mem .sys (by decide) true)]
    exact Space.digit_put_self htag
  · -- the same answer to the move that the environment would have made
    have hold : sp.digit v g.marker.twin < sp.domainSize g.marker.twin := sp.digit_lt v _
    refine hbare _ _ (sp.next_lt _) (sp.next_lt w) ?_ (hall _
      ((ht.put_twin_mem_sysTrans hs hold (StateSet.lt_size hw)).mpr hw) fun x hx ↦ ?_)
    · refine Space.bare_eq_iff.mpr fun x hx hxm ↦ ?_
      rw [Space.digit_next_of_current hx, Space.digit_next_of_current hx]
      exact Space.digit_put_of_ne hold fun heq ↦ hxm (VarId.twin_inj heq)
    · by_cases hxt : x = g.marker.twin
      · rw [hxt, Space.digit_put_self hold]
      · rw [Space.digit_put_of_ne hold hxt, ← hvw x hx, Space.digit_put_of_ne htag hxt]

theorem CanForce.imp {i : Nat} {target target' : Nat → Prop} (h : g.CanForce i target)
    (htarget : ∀ j, target j → target' j) : g.CanForce i target' := by
  obtain ⟨v, hv, hvi, hall⟩ := h
  exact ⟨v, hv, hvi, fun w hw hvw ↦ htarget _ (hall w hw hvw)⟩

/-- The layers are those of a solved game: from a later layer the environment forces an earlier one
or a lower rank, from the first layer it forces the rank. -/
structure Solved (g : Game sp) : Prop where
  layer_subset : ∀ r row k i, i ∈ g.layer r row k → i ∈ g.rank r
  cover : g.RowsCover
  force_layers : ∀ r row k i, r < g.numRanks → row < g.numRows → i ∈ g.rank r → i ∉ g.below r →
    g.FirstIn r row (k + 1) i →
      g.CanForce i fun j ↦ (∃ c, c ≤ k ∧ j ∈ g.layer r row c) ∨ j ∈ g.below r
  force_rank : ∀ r row i, r < g.numRanks → row < g.numRows → i ∈ g.rank r → i ∉ g.below r →
    g.FirstIn r row 0 i → g.CanForce i fun j ↦ j ∈ g.rank r

/-! ## A game of turns -/

end Game

/-- A bit of the environment. -/
def environmentBit : Variable := ⟨.boolean, "e", .env, by decide⟩

/-- A bit of the system. -/
def systemBit : Variable := ⟨.boolean, "s", .sys, by decide⟩

/-- The row marker over the values of a domain. -/
def rowMarker (rows : Domain) : Variable := ⟨rows, rowMarkerName, .aux, by decide⟩

/-- A bit of the environment, a bit of the system and two rows. -/
def bitVariables : List Variable :=
  [environmentBit, systemBit,
    rowMarker ⟨rangeValues 2, List.cons_ne_nil _ _, nodup_rangeValues 2⟩]

theorem nodup_bitVariables : (bitVariables.map (·.name)).Nodup := by decide

/-- Their valuations. -/
def bits : Space where
  registry := ⟨bitVariables, nodup_bitVariables⟩
  sizes := [2, 2, 2, 2, 2, 2]
  size := 64
  sizes_eq := rfl
  size_eq := rfl
  size_le := by decide

namespace Game

/-- The environment has to set its bit again and again, and to clear it; what the system has to do
cannot be done. -/
def turns : Game bits where
  initial := .univ
  envTrans := .univ
  sysTrans := .univ
  ranks := [.univ]
  progress := [[[.literal ⟨0⟩ 1, .univ], [.literal ⟨0⟩ 0, .univ]]]
  assumptions := [⟨"set", "e"⟩, ⟨"cleared", "!e"⟩]
  guarantees := [⟨"never", "false"⟩]
  marker := ⟨4⟩

theorem twoPlayer_turns : turns.TwoPlayer where
  initial := .univ _
  ranks := fun s hs ↦ List.mem_singleton.mp hs ▸ .univ _
  layers := fun matrix hm row hrow s hs ↦ by
    rw [List.mem_singleton.mp hm, List.mem_pair] at hrow
    rcases hrow with rfl | rfl <;> rcases List.mem_pair.mp hs with rfl | rfl
    · exact .literal (by decide) (by decide) 1
    · exact .univ _
    · exact .literal (by decide) (by decide) 0
    · exact .univ _
  aux := by decide
  envTrans := .univ _
  sysTrans := .univ _

private theorem canForce_bit (i : Nat) {value : Nat} (hv : value < 2) :
    turns.CanForce i fun j ↦ j ∈ (.literal ⟨0⟩ value : StateSet bits) := by
  have hlt : value < bits.domainSize ⟨1⟩ := hv
  refine ⟨bits.put i ⟨1⟩ value, StateSet.mem_univ.mpr (Space.put_lt hlt), ?_, fun w hw hvw ↦ ?_⟩
  · refine Space.now_eq_iff.mpr fun x hx ↦ Space.digit_put_of_ne hlt ?_
    rintro rfl
    cases hx
  · refine (StateSet.mem_literal (by decide)).mpr ⟨bits.next_lt w, ?_⟩
    rw [Space.digit_next_of_current rfl]
    exact (hvw ⟨1⟩ (by decide)).symm.trans (Space.digit_put_self hlt)

theorem solved_turns : turns.Solved where
  layer_subset := fun r row k i hi ↦ by
    cases r with
    | zero => exact StateSet.mem_univ.mpr (StateSet.lt_size hi)
    | succ r => exact absurd hi (StateSet.not_mem_empty i)
  cover := fun r row i hr hrow hi _ ↦ by
    obtain rfl : r = 0 := Nat.lt_one_iff.mp hr
    refine ⟨1, ?_⟩
    rcases Nat.lt_succ_iff_lt_or_eq.mp hrow with hrow | rfl
    · obtain rfl : row = 0 := Nat.lt_one_iff.mp hrow
      exact hi
    · exact hi
  force_layers := fun r row k i hr hrow _ _ hfirst ↦ by
    obtain rfl : r = 0 := Nat.lt_one_iff.mp hr
    have hk := hfirst.column_lt
    rcases Nat.lt_succ_iff_lt_or_eq.mp hrow with hrow | rfl
    · obtain rfl : row = 0 := Nat.lt_one_iff.mp hrow
      obtain rfl : k = 0 := Nat.lt_one_iff.mp (Nat.lt_of_succ_lt_succ hk)
      exact (canForce_bit i (by decide : 1 < 2)).imp fun j hj ↦ Or.inl ⟨0, Nat.le_refl 0, hj⟩
    · obtain rfl : k = 0 := Nat.lt_one_iff.mp (Nat.lt_of_succ_lt_succ hk)
      exact (canForce_bit i (by decide : 0 < 2)).imp fun j hj ↦ Or.inl ⟨0, Nat.le_refl 0, hj⟩
  force_rank := fun r row i hr _ _ _ _ ↦ by
    obtain rfl : r = 0 := Nat.lt_one_iff.mp hr
    exact (canForce_bit i (by decide : 0 < 2)).imp fun j hj ↦
      StateSet.mem_univ.mpr (StateSet.lt_size hj)

end Game

end JusticeViolation

import JusticeViolation.Proofs.Game.Solution

/-!
# What an accepted game does not promise

The row marker belongs to the constructions: they tag states with it and read its twin as the row
that a step enters. So the relations of a game should depend on neither copy, and initial states,
ranks and layers should be sets of untagged states. `Game.Guarded` says this.

The shape check establishes less. It asks that the relations and the initial states do not depend on
the current copy, and asks nothing of the members of a layer. A game that breaks every promise of
`Game.Guarded` may pass.
-/

namespace JusticeViolation

namespace Game

variable {sp : Space}

/-- Nothing depends on the row marker, and only the relations depend on the next state. -/
structure Guarded (g : Game sp) : Prop where
  relations : ∀ s ∈ [g.initial, g.envTrans, g.sysTrans],
    s.DependsOn fun x ↦ x ≠ g.marker ∧ x ≠ g.marker.twin
  initial : g.initial.Untagged g.marker
  ranks : ∀ s ∈ g.ranks, s.Untagged g.marker
  layers : ∀ matrix ∈ g.progress, ∀ row ∈ matrix, ∀ s ∈ row, s.Untagged g.marker

/-- The game with other sets for its layers of progress. -/
def mapLayers (f : StateSet sp → StateSet sp) (g : Game sp) : Game sp :=
  { g with progress := g.progress.map (·.map (·.map f)) }

theorem markerFault?_mapLayers (f : StateSet sp → StateSet sp) (g : Game sp) :
    (g.mapLayers f).markerFault? = g.markerFault? := rfl

theorem rankFault?_mapLayers (f : StateSet sp → StateSet sp) (g : Game sp) :
    (g.mapLayers f).rankFault? = g.rankFault? := rfl

/-- The members of the layers are not looked at. -/
theorem progressFault?_mapLayers (f : StateSet sp → StateSet sp) (g : Game sp) :
    (g.mapLayers f).progressFault? = g.progressFault? := by
  have hmatrix : ∀ rank matrix,
      (g.mapLayers f).matrixFault? rank (matrix.map (·.map f)) = g.matrixFault? rank matrix := by
    intro rank matrix
    have hempty : ((·.isEmpty) ∘ fun row : List (StateSet sp) ↦ row.map f) = (·.isEmpty) :=
      funext fun _ ↦ List.isEmpty_map
    rw [matrixFault?, matrixFault?, List.length_map, List.findIdx?_map, hempty]
    rfl
  rw [progressFault?, progressFault?, mapLayers, List.length_map, List.zipIdx_map,
    List.findSome?_map]
  exact if_congr Iff.rfl rfl (congrArg (List.findSome? · _) (funext fun l ↦ hmatrix l.2 l.1))

theorem shapeFault?_mapLayers (f : StateSet sp → StateSet sp) (g : Game sp) :
    (g.mapLayers f).shapeFault? = g.shapeFault? := by
  rw [shapeFault?, shapeFault?, markerFault?_mapLayers, progressFault?_mapLayers,
    rankFault?_mapLayers]
  rfl

/-- **What acceptance promises.** A game is accepted if and only if it is shaped, and it stays
accepted whatever sets its layers are exchanged for. -/
theorem shapeFault?_exact (g : Game sp) :
    (g.shapeFault? = none ↔ g.Shaped) ∧
      ∀ f, (g.mapLayers f).shapeFault? = g.shapeFault? :=
  ⟨shapeFault?_eq_none_iff, fun f ↦ shapeFault?_mapLayers f g⟩

/-! ## A game without a guard -/

/-- The next value of the row marker is part of all relations, and the sets of states are tagged
and speak of the next state. -/
def unguarded : Game bits where
  initial := .literal ⟨1⟩ 1 ∩ .literal ⟨5⟩ 1
  envTrans := .literal ⟨5⟩ 0
  sysTrans := .literal ⟨5⟩ 0
  ranks := [.literal ⟨1⟩ 1 ∩ .literal ⟨4⟩ 1]
  progress := [[[.literal ⟨1⟩ 1 ∩ .literal ⟨4⟩ 1], [.literal ⟨1⟩ 1 ∩ .literal ⟨4⟩ 1]]]
  assumptions := [⟨"a0", "a0"⟩, ⟨"a1", "a1"⟩]
  guarantees := [⟨"g0", "g0"⟩]
  marker := ⟨4⟩

/-- An accepted game may break each of the promises. -/
theorem not_forall_guarded : unguarded.shapeFault? = none ∧
    (∀ s ∈ [unguarded.initial, unguarded.envTrans, unguarded.sysTrans],
      ¬s.DependsOn fun x ↦ x ≠ unguarded.marker ∧ x ≠ unguarded.marker.twin) ∧
    ¬unguarded.initial.Current ∧
    (∀ s ∈ unguarded.ranks, ¬s.Current ∧ ¬s.DependsOn (· ≠ unguarded.marker)) ∧
    (∀ matrix ∈ unguarded.progress, ∀ row ∈ matrix, ∀ s ∈ row,
      ¬s.Current ∧ ¬s.DependsOn (· ≠ unguarded.marker)) ∧
    ¬∀ g : Game bits, g.shapeFault? = none → g.Guarded := by
  have hfault : unguarded.shapeFault? = none := by decide +kernel
  -- a copy of the support matters
  have hmatters : ∀ {s : StateSet bits} {x : VarId} {p : VarId → Prop}, x ∈ s.support →
      (∀ y, p y → y ≠ x) → ¬s.DependsOn p := fun hx hp hdep ↦
    (StateSet.dependsOn_ne_iff (List.mem_filter.mp hx).1).mp (hdep.mono hp) hx
  have hcurrent : ∀ {s : StateSet bits}, (⟨1⟩ : VarId) ∈ s.support → ¬s.Current := fun hx ↦
    hmatters hx fun y hy hyx ↦ by
      rw [hyx] at hy
      cases hy
  have hrelations : ∀ s ∈ [unguarded.initial, unguarded.envTrans, unguarded.sysTrans],
      (⟨5⟩ : VarId) ∈ s.support := by decide +kernel
  have hranks : ∀ s ∈ unguarded.ranks, (⟨1⟩ : VarId) ∈ s.support ∧ (⟨4⟩ : VarId) ∈ s.support := by
    decide +kernel
  have hlayers : ∀ matrix ∈ unguarded.progress, ∀ row ∈ matrix, ∀ s ∈ row,
      (⟨1⟩ : VarId) ∈ s.support ∧ (⟨4⟩ : VarId) ∈ s.support := by decide +kernel
  have hinitial : ¬unguarded.initial.Current := hcurrent (by decide +kernel)
  refine ⟨hfault, fun s hs ↦ hmatters (hrelations s hs) fun _ hy ↦ hy.2, hinitial,
    fun s hs ↦ ⟨hcurrent (hranks s hs).1, hmatters (hranks s hs).2 fun _ hy ↦ hy⟩,
    fun matrix hm row hrow s hs ↦ ?_, fun hall ↦ hinitial (hall unguarded hfault).initial.current⟩
  obtain ⟨hnext, htag⟩ := hlayers matrix hm row hrow s hs
  exact ⟨hcurrent hnext, hmatters htag fun _ hy ↦ hy⟩

end Game

end JusticeViolation

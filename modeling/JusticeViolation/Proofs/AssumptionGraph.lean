import JusticeViolation.Proofs.Path.Rows
import JusticeViolation.Proofs.Split

/-!
# When there is no assumption graph

The shares of a cycle belong to rows of its points, and a step is recorded between different shares
only. An assumption graph is refused for one reason alone: that such a step does not lead to the
next row. With two rows there is no other row that it could lead to.
-/

namespace JusticeViolation

variable {sp : Space} {g : Game sp}

theorem exists_of_mem_addShare {row : Nat} {states : StateSet sp}
    {shares : List (Nat × StateSet sp)} {share : Nat × StateSet sp}
    (h : share ∈ addShare row states shares) : share.1 = row ∨ ∃ s ∈ shares, s.1 = share.1 := by
  induction shares with
  | nil => exact Or.inl (List.mem_singleton.mp h ▸ rfl)
  | cons first shares ih =>
    obtain ⟨r, s⟩ := first
    rw [addShare] at h
    split at h
    · rcases List.mem_cons.mp h with rfl | h
      · exact Or.inl rfl
      · exact Or.inr ⟨share, h, rfl⟩
    · split at h
      · rename_i heq
        rcases List.mem_cons.mp h with rfl | h
        · exact Or.inl heq.symm
        · exact Or.inr ⟨share, List.mem_cons_of_mem _ h, rfl⟩
      · rcases List.mem_cons.mp h with rfl | h
        · exact Or.inr ⟨_, List.mem_cons_self, rfl⟩
        · exact (ih h).imp_right fun ⟨t, ht, hrow⟩ ↦ ⟨t, List.mem_cons_of_mem _ ht, hrow⟩

namespace Game

variable {points : List (Point sp)} {left cycle inner : StateSet sp}

/-- Every share belongs to the row of some point. -/
theorem exists_of_mem_shares {share : Nat × StateSet sp} (h : share ∈ g.shares left points) :
    ∃ p ∈ points, p.row = share.1 := by
  unfold shares at h
  revert share
  refine List.foldlRecOn (motive := fun acc : StateSet sp × List (Nat × StateSet sp) ↦
    ∀ {share}, share ∈ acc.2 → ∃ p ∈ points, p.row = share.1) points _
    (fun h ↦ absurd h List.not_mem_nil) ?_
  intro acc hacc p hp share h
  dsimp only at h
  split at h
  · exact hacc h
  · rcases exists_of_mem_addShare h with hrow | ⟨s, hs, hrow⟩
    · exact ⟨p, hp, hrow.symm⟩
    · exact hrow ▸ hacc hs

/-- Every share of the paths of a cycle belongs to the row of a point of some path. -/
theorem exists_point_of_mem_shares {paths : List (Path sp)} {share : Nat × StateSet sp}
    (h : share ∈ g.shares left (paths.flatMap (·.cycle) ++ paths.flatMap (·.approach))) :
    ∃ path ∈ paths, ∃ p ∈ path.points, p.row = share.1 := by
  obtain ⟨p, hp, hrow⟩ := exists_of_mem_shares h
  rcases List.mem_append.mp hp with hp | hp
  · obtain ⟨path, hpath, hp⟩ := List.mem_flatMap.mp hp
    exact ⟨path, hpath, p, List.mem_of_mem_drop hp, hrow⟩
  · obtain ⟨path, hpath, hp⟩ := List.mem_flatMap.mp hp
    exact ⟨path, hpath, p, List.mem_of_mem_take hp, hrow⟩

/-- A step is recorded between different shares. -/
theorem of_mem_shareSteps {shares : List (Nat × StateSet sp)} {step : Nat × Nat}
    (h : step ∈ g.shareSteps cycle inner shares) :
    step.1 ≠ step.2 ∧ (∃ s ∈ shares, s.1 = step.1) ∧ ∃ s ∈ shares, s.1 = step.2 := by
  obtain ⟨source, hsource, h⟩ := List.mem_flatMap.mp h
  obtain ⟨target, htarget, rfl⟩ := List.mem_map.mp h
  obtain ⟨hmem, hcond⟩ := List.mem_filter.mp htarget
  rw [Bool.and_eq_true, bne_iff_ne] at hcond
  exact ⟨hcond.1, ⟨source, hsource, rfl⟩, target, hmem, rfl⟩

/-- **Why an assumption graph is refused**: a step between the rows of two points does not lead to
the next row. -/
theorem assumptionGraph_eq_error {rank : Nat} {paths : List (Path sp)} {v : Violation}
    (h : g.assumptionGraph rank cycle inner paths = .error v) :
    ∃ s t, v = .nonConsecutiveAssumptions rank s t ∧ t ≠ (s + 1) % g.numRows ∧ s ≠ t ∧
      (∃ path ∈ paths, ∃ p ∈ path.points, p.row = s) ∧
      ∃ path ∈ paths, ∃ p ∈ path.points, p.row = t := by
  unfold assumptionGraph at h
  dsimp only at h
  split at h
  · rename_i s t hfind
    obtain rfl := Except.error.inj h
    have hnext := List.find?_some hfind
    rw [bne_iff_ne] at hnext
    obtain ⟨hne, ⟨share, hshare, rfl⟩, share', hshare', rfl⟩ :=
      of_mem_shareSteps (List.mem_of_find?_eq_some hfind)
    exact ⟨_, _, rfl, hnext, hne, exists_point_of_mem_shares hshare,
      exists_point_of_mem_shares hshare'⟩
  · cases h

end Game

/-- The points of the paths of a rank are in rows of its cells. -/
theorem Item.row_lt_of_mem_paths {item : Item sp} {lower : StateSet sp} {path : Path sp}
    (hpath : path ∈ (item.split g lower).tracing.paths) {p : Point sp} (hp : p ∈ path.points) :
    p.row < item.cells.length := by
  obtain ⟨w, hw, rfl⟩ := List.mem_map.mp hpath
  have hrow := Maze.inRows_trace (Item.inRows_seeds item (item.split g lower).maze) w hw p hp
  rwa [show (item.split g lower).maze.cells.length = item.cells.length from
    Item.length_mazeCells] at hrow

/-- **The assumption graph of a rank is refused** if a step between two of its rows does not lead to
the next one, so there are at least three. -/
theorem Item.assumptionGraph_eq_error {item : Item sp} {lower cycle inner : StateSet sp}
    {rank : Nat} {v : Violation} (hrows : item.cells.length ≤ g.numRows)
    (h : g.assumptionGraph rank cycle inner (item.split g lower).tracing.paths = .error v) :
    2 < g.numRows ∧ ∃ s t, v = .nonConsecutiveAssumptions rank s t ∧ t ≠ (s + 1) % g.numRows := by
  obtain ⟨s, t, hv, hnext, hne, ⟨path, hpath, p, hp, rfl⟩, path', hpath', q, hq, rfl⟩ :=
    Game.assumptionGraph_eq_error h
  have hs := (Item.row_lt_of_mem_paths hpath hp).trans_le hrows
  have ht := (Item.row_lt_of_mem_paths hpath' hq).trans_le hrows
  refine ⟨?_, p.row, q.row, hv, hnext⟩
  by_contra htwo
  have hrows : g.numRows = 2 := by omega
  rw [hrows] at hnext
  omega

end JusticeViolation

import JusticeViolation.Proofs.Path.Round
import JusticeViolation.Proofs.Path.Rows
import Mathlib.Data.List.Sort

/-!
# Paths go around

A step leads from its point to an earlier column of the row or, from the first column, to the next
row; narrowing a point changes neither. A walk that closes arrives at a point that it had been at,
so its points from there on lead to one another in a circle, and a circle visits every row. Hence no
cycle skips a row, wherever it is closed. Neither the game nor what has been committed matters, only
that the seeds are in rows of the maze.
-/

namespace JusticeViolation

variable {sp : Space} {g : Game sp} {m : Maze sp}

/-- An ascending list is determined by its members. -/
theorem ascending_eq_range {ns : List Nat} {n : Nat} (h : ∀ k, k ∈ ns ↔ k < n) :
    ascending ns = List.range n := by
  have hperm : (ascending ns).Perm (List.range n) := by
    refine (List.perm_ext_iff_of_nodup ?_ List.nodup_range).mpr fun k ↦ ?_
    · exact (pairwise_ascending ns).imp Nat.ne_of_lt
    · rw [mem_ascending, List.mem_range, h]
  exact hperm.eq_of_pairwise' (r := (· < ·)) (pairwise_ascending ns) List.pairwise_lt_range

/-- A path that goes around: from each point to the next, and from the last one back to the first
one of the cycle, the column falls within a row or, from the first column, the next row is entered.
The cycle visits every row. -/
structure Path.GoesAround (m : Maze sp) (p : Path sp) : Prop where
  returns : ∃ first, p.points[p.start]? = some first ∧ (p.points ++ [first]).IsChain fun q r ↦
    (0 < q.column → r.row = q.row ∧ r.column < q.column) ∧
      (q.column = 0 → r.row = (q.row + 1) % m.cells.length)
  cycleRows_eq : p.cycleRows = List.range m.cells.length

namespace Maze

variable {before inner : StateSet sp} {seed : Point sp} {seeds : List (Point sp)} {start : Nat}

/-- The points of a walk that closes lead to one another, and the last one to the first one of the
cycle. -/
theorem isChain_walk (hend : (m.walk g inner seed).ending = .closed start) :
    ∃ first, (m.walk g inner seed).points[start]? = some first ∧
      ((m.walk g inner seed).points ++ [first]).IsChain m.Leads := by
  obtain ⟨points, last, hchain, hends⟩ := m.walk_induction (g := g)
    (P := fun _ points last _ ↦ (points ++ [last]).IsChain m.Leads)
    (fun h hstep ↦ (leads_of_step? hstep).isChain h _) inner seed (List.isChain_singleton seed)
  obtain ⟨hpoints, hstart⟩ := hends.closed start hend
  exact ⟨last, hpoints ▸ hstart, hpoints ▸ hchain⟩

/-- **The cycle of a closed walk visits every row.** -/
theorem cycleRows_walk (hrow : seed.row < m.cells.length)
    (hend : (m.walk g inner seed).ending = .closed start) :
    (m.walk g inner seed).path.cycleRows = List.range m.cells.length := by
  obtain ⟨first, hfirst, hchain⟩ := isChain_walk hend
  obtain ⟨hlt, hget⟩ := List.getElem?_eq_some_iff.mp hfirst
  have hcycle : (m.walk g inner seed).path.cycle = (m.walk g inner seed).points.drop start := by
    rw [Walk.path, hend, Path.cycle]
  have hrows : m.InRows ((m.walk g inner seed).points.drop start) := fun q hq ↦
    (inRows_walk inner hrow).1 q (List.mem_of_mem_drop hq)
  have hcircle : m.Circle ((m.walk g inner seed).points.drop start) := by
    refine ⟨first, _, hget ▸ List.drop_eq_getElem_cons hlt, ?_⟩
    rw [← List.drop_append_of_le_length (Nat.le_of_lt hlt)]
    exact hchain.drop start
  refine ascending_eq_range fun k ↦ ?_
  rw [List.mem_map, hcycle]
  constructor
  · rintro ⟨q, hq, rfl⟩
    exact hrows q hq
  · intro hk
    obtain ⟨q, hq, hrowq, -⟩ := hcircle.exists_visit hrows hk
    exact ⟨q, hq, hrowq⟩

/-- **A walk that closes makes a path.** -/
theorem violation?_walk_of_closed (hrow : seed.row < m.cells.length)
    (hend : (m.walk g inner seed).ending = .closed start) :
    (m.walk g inner seed).violation? m = none := by
  unfold Walk.violation?
  rw [hend]
  dsimp only
  rw [skippedRows?, cycleRows_walk hrow hend, List.length_range, if_neg fun hskips ↦ hskips.2 rfl]

theorem goesAround_walk (hrow : seed.row < m.cells.length)
    (hend : (m.walk g inner seed).ending = .closed start) :
    (m.walk g inner seed).path.GoesAround m where
  returns := by
    obtain ⟨first, hfirst, hchain⟩ := isChain_walk hend
    refine ⟨first, by rw [Walk.path, hend]; exact hfirst, hchain.imp fun _ _ hleads ↦ ?_⟩
    exact ⟨hleads.of_pos, hleads.of_zero⟩
  cycleRows_eq := cycleRows_walk hrow hend

/-- No walk skips a row. -/
theorem violation?_walk_ne (hrow : seed.row < m.cells.length) (rank row column : Nat)
    (visited : List Nat) (rows : Nat) :
    (m.walk g inner seed).violation? m ≠ some (.cycleSkipsRows rank row column visited rows) := by
  intro hv
  cases hend : (m.walk g inner seed).ending with
  | closed start =>
    rw [violation?_walk_of_closed hrow hend] at hv
    cases hv
  | stuck =>
    rw [Walk.violation?, hend] at hv
    cases hv
  | endless =>
    rw [Walk.violation?, hend] at hv
    cases hv

/-- **Every path goes around, and no cycle skips a row**, whatever the game. -/
theorem goesAround_trace (hseeds : m.InRows seeds) :
    (∀ rank row column visited rows, (m.trace g before seeds).violation ≠
      some (.cycleSkipsRows rank row column visited rows)) ∧
    ((m.trace g before seeds).violation = none →
      ∀ p ∈ (m.trace g before seeds).paths, p.GoesAround m) := by
  obtain ⟨pending, covered, t, ⟨hpending, hpaths⟩, hnone, hends⟩ := m.trace_induction (g := g)
    (P := fun pending _ t ↦ m.InRows pending ∧ ∀ w ∈ t.walks, w.path.GoesAround m)
    (fun ⟨hpending, hpaths⟩ hseed hok ↦ by
      obtain ⟨hrow, hrest⟩ := inRows_nextSeed? hseed hpending
      obtain ⟨start, hend⟩ := Walk.exists_closed hok
      exact ⟨hrest.append (inRows_walk _ hrow).2, List.forall_mem_append.mpr
        ⟨hpaths, List.forall_mem_singleton.mpr (goesAround_walk hrow hend)⟩⟩)
    before seeds ⟨hseeds, fun _ hw ↦ absurd hw List.not_mem_nil⟩
  have hpaths' : ∀ p ∈ t.paths, p.GoesAround m := fun p hp ↦ by
    obtain ⟨w, hw, rfl⟩ := List.mem_map.mp hp
    exact hpaths w hw
  have hnot : ∀ rank row column visited rows,
      t.violation ≠ some (.cycleSkipsRows rank row column visited rows) := by
    rw [hnone]
    exact fun _ _ _ _ _ hv ↦ nomatch hv
  generalize m.trace g before seeds = result at hends ⊢
  cases hends with
  | done => exact ⟨hnot, fun _ ↦ hpaths'⟩
  | exhausted => exact ⟨hnot, fun _ ↦ hpaths'⟩
  | broken hseed hv =>
    refine ⟨fun rank row column visited rows hskips ↦ ?_, fun hnone' ↦ nomatch hnone'⟩
    exact violation?_walk_ne (inRows_nextSeed? hseed hpending).1 rank row column visited rows
      (hv.trans hskips)

/-- On the roundabout the path goes around through both rows. -/
theorem goesAround_trace_roundabout :
    let t := roundabout.trace Game.turns ∅ [⟨0, 1, cellAt roundabout.cells 0 1⟩]
    t.paths.map (·.cycleRows) = [[0, 1]] ∧ ∀ p ∈ t.paths, p.GoesAround roundabout := by
  have hseeds : roundabout.InRows [⟨0, 1, cellAt roundabout.cells 0 1⟩] :=
    inRows_singleton.mpr (by decide)
  exact ⟨by decide +kernel, (goesAround_trace hseeds).2 (by decide +kernel)⟩

end Maze

end JusticeViolation

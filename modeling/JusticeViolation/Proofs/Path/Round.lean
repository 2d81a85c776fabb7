import JusticeViolation.Proofs.Path.Step

/-!
# Round and round

Where the column falls within each row and the rows follow one another, the first column of every
row is met again and again, for a column cannot fall for ever. Points that lead to one another in
a circle are met so, which is why a cycle visits every row.
-/

namespace JusticeViolation

/-- **Every row in turn.** -/
theorem exists_first_column {N : Nat} (row column : Nat → Nat) (hrow : ∀ k, row k < N)
    (hstep : ∀ k, (0 < column k ∧ row (k + 1) = row k ∧ column (k + 1) < column k) ∨
      (column k = 0 ∧ row (k + 1) = (row k + 1) % N)) {target : Nat} (htarget : target < N)
    (k : Nat) : ∃ l, k ≤ l ∧ row l = target ∧ column l = 0 := by
  -- within a row: by induction on the column
  have hfall : ∀ c k, column k ≤ c → ∃ l, k ≤ l ∧ row l = row k ∧ column l = 0 := by
    intro c
    induction c with
    | zero => exact fun k hk ↦ ⟨k, Nat.le_refl k, rfl, Nat.le_zero.mp hk⟩
    | succ c ih =>
      intro k hk
      rcases hstep k with ⟨-, hrow', hlt⟩ | ⟨hzero, -⟩
      · obtain ⟨l, hl, hrowl, hcol⟩ := ih (k + 1) (by omega)
        exact ⟨l, by omega, hrowl.trans hrow', hcol⟩
      · exact ⟨k, Nat.le_refl k, rfl, hzero⟩
  -- from row to row: by induction on the distance
  have hturn : ∀ d k, ∃ l, k ≤ l ∧ row l = (row k + d) % N ∧ column l = 0 := by
    intro d
    induction d with
    | zero =>
      intro k
      obtain ⟨l, hl, hrowl, hcol⟩ := hfall (column k) k (Nat.le_refl _)
      exact ⟨l, hl, by rw [hrowl, Nat.add_zero, Nat.mod_eq_of_lt (hrow k)], hcol⟩
    | succ d ih =>
      intro k
      obtain ⟨l, hl, hrowl, hcol⟩ := ih k
      have hnext : row (l + 1) = (row k + (d + 1)) % N := by
        rcases hstep l with ⟨hpos, -⟩ | ⟨-, hrow'⟩
        · omega
        · rw [hrow', hrowl, Nat.mod_add_mod, Nat.add_assoc]
      obtain ⟨l', hl', hrowl', hcol'⟩ := hfall (column (l + 1)) (l + 1) (Nat.le_refl _)
      exact ⟨l', by omega, hrowl'.trans hnext, hcol'⟩
  obtain ⟨l, hl, hrowl, hcol⟩ := hturn (N + target - row k) k
  have hk := hrow k
  refine ⟨l, hl, ?_, hcol⟩
  rw [hrowl, show row k + (N + target - row k) = N + target by omega, Nat.add_mod_left,
    Nat.mod_eq_of_lt htarget]

namespace Maze

variable {sp : Space} {m : Maze sp}

/-- Points that lead to one another for ever are in the first column of every row. -/
theorem exists_visit {p : Nat → Point sp} (hleads : ∀ k, m.Leads (p k) (p (k + 1)))
    (hrow : ∀ k, (p k).row < m.cells.length) {target : Nat} (htarget : target < m.cells.length)
    (k : Nat) : ∃ l, k ≤ l ∧ (p l).row = target ∧ (p l).column = 0 := by
  refine exists_first_column (fun k ↦ (p k).row) (fun k ↦ (p k).column) hrow (fun k ↦ ?_) htarget k
  rcases Nat.eq_zero_or_pos (p k).column with hzero | hpos
  · exact Or.inr ⟨hzero, (hleads k).of_zero hzero⟩
  · exact Or.inl ⟨hpos, (hleads k).of_pos hpos⟩

/-- A circle: the points of a list that lead to one another, the last one to the first. -/
def Circle (m : Maze sp) (ps : List (Point sp)) : Prop :=
  ∃ p rest, ps = p :: rest ∧ (ps ++ [p]).IsChain m.Leads

/-- **A circle visits every row**, each in its first column. -/
theorem Circle.exists_visit {ps : List (Point sp)} (h : m.Circle ps)
    (hrow : ∀ p ∈ ps, p.row < m.cells.length) {target : Nat} (htarget : target < m.cells.length) :
    ∃ p ∈ ps, p.row = target ∧ p.column = 0 := by
  obtain ⟨first, rest, rfl, hchain⟩ := h
  set ps := first :: rest with hps
  have hlt : ∀ k, k % ps.length < ps.length := fun k ↦ Nat.mod_lt k (Nat.succ_pos _)
  have hmem : ∀ k, ps.getD (k % ps.length) first ∈ ps := fun k ↦ by
    rw [List.getD_eq_getElem _ _ (hlt k)]
    exact List.getElem_mem _
  have hlink : ∀ i, i < ps.length →
      m.Leads (ps.getD i first) (ps.getD ((i + 1) % ps.length) first) := by
    intro i hi
    have hlink := hchain.getElem i (by rw [List.length_append, List.length_singleton]; omega)
    rw [List.getElem_append_left hi] at hlink
    rw [List.getD_eq_getElem _ _ hi]
    rcases Nat.lt_or_ge (i + 1) ps.length with hlt | hge
    · rw [List.getElem_append_left hlt] at hlink
      rwa [Nat.mod_eq_of_lt hlt, List.getD_eq_getElem _ _ hlt]
    · rw [List.getElem_append_right hge, List.getElem_singleton] at hlink
      rw [show i + 1 = ps.length by omega, Nat.mod_self]
      exact hlink
  -- the endless sequence that goes around the circle
  have hleads : ∀ k, m.Leads (ps.getD (k % ps.length) first)
      (ps.getD ((k + 1) % ps.length) first) := fun k ↦ by
    rw [← Nat.mod_add_mod]
    exact hlink _ (hlt k)
  obtain ⟨l, -, hl⟩ := Maze.exists_visit (p := fun k ↦ ps.getD (k % ps.length) first) hleads
    (fun k ↦ hrow _ (hmem k)) htarget 0
  exact ⟨_, hmem l, hl⟩

end Maze

end JusticeViolation

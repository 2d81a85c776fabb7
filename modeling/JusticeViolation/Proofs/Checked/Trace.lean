import JusticeViolation.Proofs.Checked.Walk
import JusticeViolation.Proofs.Path.Coverage

/-!
# Tracings in range

Paths are traced from seeds that have cells, and so has whatever a walk spills. The position at
which a closed walk begins its cycle is that of one of its points, so the first point of the cycle
is found, and the points before it and from it on. Every walk that closes covers a state of its
seed, which was not covered before; so there are no more walks than valuations, however many are
allowed.

Whether the cells are sets of states does not matter here: a choice is one of the point that it is
committed for, and it is among the movers.
-/

namespace JusticeViolation

open Checked

variable {sp : Space}

/-- A walk that went on for ever broke the construction off. -/
def Violation.isEndless : Violation → Bool
  | pathEndless _ _ _ => true
  | _ => false

/-! ## The path of a walk -/

namespace Path

variable (p : Path sp)

/-- The points before the cycle. -/
def checkedApproach : Checked (List (Point sp)) := takeTo p.points p.start

/-- The points of the cycle. -/
def checkedCycle : Checked (List (Point sp)) := dropTo p.points p.start

variable {p}

theorem checkedApproach_eq (h : p.start ≤ p.points.length) : p.checkedApproach = .ok p.approach :=
  takeTo_of_le h

theorem checkedCycle_eq (h : p.start ≤ p.points.length) : p.checkedCycle = .ok p.cycle :=
  dropTo_of_le h

end Path

/-- Why a walk does not make a path. -/
def Walk.checkedViolation? (w : Walk sp) (m : Maze sp) : Checked (Option Violation) :=
  match w.ending with
  | .closed start => do
    let first ← lookup w.points start
    let around ← w.path.checkedCycle
    return skippedRows? m.rank first.row first.column (ascending (around.map (·.row)))
      m.cells.length
  | .stuck => do
    let tail ← minus w.points.length 1
    let last ← lookup w.points tail
    return some (.pathStuck m.rank last.row last.column)
  | .endless => .error .unfinished

/-! ## Tracings -/

namespace Maze

variable (g : Game sp) (m : Maze sp)

/-- Trace paths from `pending` on, given the states that are covered. -/
def checkedTraceFrom (more : Nat) : (fuel : Nat) → (pending : List (Point sp)) →
    (covered : StateSet sp) → Tracing sp → Checked (Tracing sp)
  | 0, _, _, _ => .error .unfinished
  | fuel + 1, pending, covered, t =>
    match nextSeed? covered pending with
    | none => return t
    | some next => do
      let w ← m.checkedWalk g more t.inner next.1
      let t := { t with walks := t.walks ++ [w], inner := w.inner }
      match ← w.checkedViolation? m with
      | some v => return { t with violation := some v }
      | none =>
        checkedTraceFrom more fuel (next.2 ++ w.spill)
          (covered ∪ .unionAll (w.points.map (·.states))) t

/-- Trace paths from every seed, watched for `more` steps of each walk and for `more` walks beyond
the bounds. -/
def checkedTrace (more : Nat) (inner : StateSet sp) (seeds : List (Point sp)) :
    Checked (Tracing sp) :=
  m.checkedTraceFrom g more (sp.size + 1 + more) seeds ∅ ⟨[], inner, none⟩

end Maze

/-- What a checked evaluation gives for a tracing: nothing if a walk is endless. -/
def Tracing.outcome (t : Tracing sp) : Checked (Tracing sp) :=
  if t.violation.any (·.isEndless) then .error .unfinished else .ok t

namespace Maze

variable {g : Game sp} {m : Maze sp} {inner : StateSet sp} {seed : Point sp}
  {seeds : List (Point sp)}

/-! ## One walk -/

/-- The cycle of a walk begins within its points. -/
theorem start_path_walk_le (inner : StateSet sp) (seed : Point sp) :
    (m.walk g inner seed).path.start ≤ (m.walk g inner seed).path.points.length := by
  rw [Walk.path]
  cases hend : (m.walk g inner seed).ending with
  | closed start =>
    obtain ⟨p, hp⟩ := exists_first_of_closed hend
    exact Nat.le_of_lt (List.getElem?_eq_some_iff.mp hp).1
  | stuck => exact Nat.le_refl _
  | endless => exact Nat.le_refl _

theorem checkedViolation?_walk (hend : (m.walk g inner seed).ending ≠ .endless) :
    (m.walk g inner seed).checkedViolation? m = .ok ((m.walk g inner seed).violation? m) := by
  unfold Walk.checkedViolation? Walk.violation?
  have hcycle := Path.checkedCycle_eq (start_path_walk_le (g := g) (m := m) inner seed)
  cases hwalk : (m.walk g inner seed).ending with
  | closed start =>
    obtain ⟨p, hp⟩ := exists_first_of_closed hwalk
    dsimp only
    rw [lookup_eq_ok hp, ok_bind, hcycle, ok_bind, hp]
    rfl
  | stuck =>
    have hpos : 1 ≤ (m.walk g inner seed).points.length :=
      List.length_pos_iff.mpr points_walk_ne_nil
    have hlast : (m.walk g inner seed).points[(m.walk g inner seed).points.length - 1]? =
        some ((m.walk g inner seed).points.getLast points_walk_ne_nil) := by
      rw [← List.getLast?_eq_getElem?, List.getLast?_eq_some_getLast]
    dsimp only
    rw [minus_of_le hpos, ok_bind, lookup_eq_ok hlast, ok_bind, List.getLast?_eq_getElem?, hlast]
    rfl
  | endless => exact absurd hwalk hend

/-- A walk breaks the construction off as endless if it is. -/
theorem isEndless_violation_iff (w : Walk sp) :
    (w.violation? m).any (·.isEndless) = true ↔ w.ending = .endless := by
  unfold Walk.violation?
  cases w.ending with
  | closed start =>
    dsimp only
    rw [skippedRows?]
    split <;> simp [Violation.isEndless]
  | stuck => simp [Violation.isEndless]
  | endless => simp [Violation.isEndless]

/-- **A walk that closes has taken in a state of its seed.** -/
theorem exists_held_of_closed {start : Nat} (hend : (m.walk g inner seed).ending = .closed start) :
    ∃ i ∈ seed.states, Held (m.walk g inner seed).points i := by
  obtain ⟨points, last, hfirst, hends⟩ := m.walk_induction (g := g)
    (P := fun _ points last _ ↦ (points = [] ∧ last = seed) ∨ ∃ i ∈ seed.states, Held points i)
    (fun {inner points last spill s} h hstep ↦ by
      rcases h with ⟨rfl, rfl⟩ | ⟨i, hi, hheld⟩
      · obtain ⟨row, top, column, -, -, hto, -⟩ := step?_eq_some hstep
        obtain ⟨⟨v, hv⟩, hchosen, -⟩ := stepTo?_eq_some hto
        obtain ⟨w, hw, -⟩ := Game.exists_mem_determinize (g := g) hv
        rw [← hchosen] at hw
        have hstates : w ∈ last.states := mem_states_of_mem_allowed
          (mem_allowed_of_mem_chosen hto hw)
        have hmover : w ∈ s.movers := movers_eq hstep ▸ Game.mem_domain_of_mem hw
        exact Or.inr ⟨w, hstates, Held.of_mem hmover⟩
      · exact Or.inr ⟨i, hi, hheld.append_left⟩)
    inner seed (Or.inl ⟨rfl, rfl⟩)
  obtain ⟨hpoints, hstart⟩ := hends.closed start hend
  rcases hfirst with ⟨rfl, -⟩ | hheld
  · cases hstart
  · exact hpoints ▸ hheld

/-! ## All walks -/

private theorem checkedTraceFrom_eq (more extra : Nat) {fuel : Nat} {pending : List (Point sp)}
    {covered : StateSet sp} {t : Tracing sp} (hpending : ∀ p ∈ pending, m.HasCell p)
    (hnone : t.violation = none) (hfuel : sp.size - covered.members.card < fuel) :
    m.checkedTraceFrom g more (fuel + extra) pending covered t =
      (m.traceFrom g fuel pending covered t).outcome := by
  induction fuel generalizing pending covered t with
  | zero => exact absurd hfuel (Nat.not_lt_zero _)
  | succ fuel ih =>
    rw [Nat.succ_add, checkedTraceFrom, traceFrom]
    cases hnext : nextSeed? covered pending with
    | none =>
      dsimp only
      rw [Tracing.outcome, hnone]
      rfl
    | some next =>
      obtain ⟨seed, rest⟩ := next
      obtain ⟨hseed, hrest⟩ := forall_nextSeed? (stable_hasCell (g := g)).narrow hnext hpending
      dsimp only
      rw [checkedWalk_eq more t.inner hseed, Walk.outcome]
      have hendless := isEndless_violation_iff (m := m) (m.walk g t.inner seed)
      split
      · rename_i hend
        cases hv : (m.walk g t.inner seed).violation? m with
        | none =>
          rw [hv] at hendless
          cases hendless.mpr hend
        | some v =>
          rw [hv] at hendless
          dsimp only
          rw [Tracing.outcome, if_pos (hendless.mpr hend)]
          rfl
      · rename_i hend
        rw [ok_bind, checkedViolation?_walk hend, ok_bind]
        cases hv : (m.walk g t.inner seed).violation? m with
        | some v =>
          rw [hv] at hendless
          dsimp only
          rw [Tracing.outcome, if_neg fun h ↦ hend (hendless.mp h)]
          rfl
        | none =>
          obtain ⟨start, hclosed⟩ := Walk.exists_closed hv
          obtain ⟨i, hi, hheld⟩ := exists_held_of_closed hclosed
          obtain ⟨-, p, -, rfl, -⟩ := exists_of_nextSeed?_eq_some hnext
          have hcard : covered.members.card < (covered ∪ .unionAll
              ((m.walk g t.inner { p with states := p.states \ covered }).points.map
                (·.states))).members.card :=
            StateSet.card_members_lt (fun j hj ↦ StateSet.mem_union.mpr (Or.inl hj))
              (StateSet.mem_union.mpr (Or.inr (mem_unionAll_states.mpr hheld)))
              (StateSet.mem_sdiff.mp hi).2
          have hle := StateSet.card_members_le (covered ∪ .unionAll
            ((m.walk g t.inner { p with states := p.states \ covered }).points.map (·.states)))
          exact ih (List.forall_mem_append.mpr ⟨hrest, (stable_hasCell.walk _ hseed).2⟩) hnone
            (by omega)

/-- **A tracing is in range**, for however many walks it is watched. It ends as it should, unless
some walk is endless. -/
theorem checkedTrace_eq (g : Game sp) (more : Nat) (inner : StateSet sp)
    (hseeds : ∀ p ∈ seeds, m.HasCell p) :
    m.checkedTrace g more inner seeds = (m.trace g inner seeds).outcome :=
  checkedTraceFrom_eq more more hseeds rfl (Nat.lt_succ_of_le (Nat.sub_le _ _))

/-- The cycles of all paths begin within their points. -/
theorem start_le_of_mem_paths (hseeds : ∀ p ∈ seeds, m.HasCell p) :
    ∀ p ∈ (m.trace g inner seeds).paths, p.start ≤ p.points.length := by
  intro p hp
  obtain ⟨w, hw, rfl⟩ := List.mem_map.mp hp
  exact stable_hasCell.forall_walks
    (Q := fun w ↦ w.path.start ≤ w.path.points.length)
    (fun inner seed _ ↦ start_path_walk_le inner seed) hseeds w hw

end Maze

end JusticeViolation

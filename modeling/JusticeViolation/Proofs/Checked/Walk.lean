import JusticeViolation.Proofs.Checked.Step
import JusticeViolation.Proofs.Path.Lap

/-!
# Walks in range

A walk keeps its points in a list and looks up the last one before every step. It is run here
without any watch over its arrivals, so it does not notice that it is in a trap and goes on for as
long as it may. All its points have cells, so every step is in range; and as long as a walk is in no
trap, it needs no more steps than the bound says. So a walk that may take that many steps, or more,
ends as it should, or it is in a trap and does not end.
-/

namespace JusticeViolation

open Checked

variable {sp : Space}

namespace Maze

variable (g : Game sp) (m : Maze sp)

/-- Walk on from the last of some points. -/
def checkedWalkFrom : (fuel : Nat) → (inner : StateSet sp) → (points spill : List (Point sp)) →
    Checked (Walk sp)
  | 0, _, _, _ => .error .unfinished
  | fuel + 1, inner, points, spill => do
    let tail ← minus points.length 1
    let last ← lookup points tail
    match ← m.checkedStep? g inner last with
    | none => return ⟨points, .stuck, inner, spill⟩
    | some s =>
      let points := points.set tail { last with states := s.movers }
      match points.findIdx? (· == s.next) with
      | some start => return ⟨points, .closed start, inner ∪ s.chosen, spill ++ s.spill⟩
      | none =>
        checkedWalkFrom fuel (inner ∪ s.chosen) (points ++ [s.next]) (spill ++ s.spill)

/-- The walk that begins at `p`, watched for `more` steps beyond the bound. -/
def checkedWalk (more : Nat) (inner : StateSet sp) (p : Point sp) : Checked (Walk sp) :=
  m.checkedWalkFrom g (m.fuel + more) inner [p] []

end Maze

/-- What a checked evaluation gives for a walk: nothing if the walk is endless. -/
def Walk.outcome (w : Walk sp) : Checked (Walk sp) :=
  if w.ending = .endless then .error .unfinished else .ok w

namespace Maze

variable {g : Game sp} {m : Maze sp} {inner : StateSet sp}
  {base points rest spill : List (Point sp)} {last seed : Point sp}

/-! ## One step of a walk -/

/-- A step of a walk looks up its last point, and leaves it narrowed. -/
theorem checkedWalkFrom_succ (hlast : m.HasCell last) (fuel : Nat) (inner : StateSet sp)
    (points spill : List (Point sp)) :
    m.checkedWalkFrom g (fuel + 1) inner (points ++ [last]) spill =
      match m.step? g inner last with
      | none => .ok ⟨points ++ [last], .stuck, inner, spill⟩
      | some s =>
        match (points ++ [{ last with states := s.movers }]).findIdx? (· == s.next) with
        | some start => .ok ⟨points ++ [{ last with states := s.movers }], .closed start,
            inner ∪ s.chosen, spill ++ s.spill⟩
        | none => m.checkedWalkFrom g fuel (inner ∪ s.chosen)
            (points ++ [{ last with states := s.movers }] ++ [s.next]) (spill ++ s.spill) := by
  have htail : minus (points ++ [last]).length 1 = .ok points.length := by
    rw [List.length_append, List.length_singleton]
    exact minus_of_le (Nat.le_add_left 1 _)
  have hget : (points ++ [last])[points.length]? = some last := by
    rw [List.getElem?_append_right (Nat.le_refl _), Nat.sub_self, List.getElem?_cons_zero]
  rw [checkedWalkFrom, htail, ok_bind, lookup_eq_ok hget, ok_bind, checkedStep?_eq g inner hlast,
    ok_bind]
  cases m.step? g inner last with
  | none => rfl
  | some s =>
    dsimp only
    rw [List.set_append_right _ _ (Nat.le_refl _), Nat.sub_self, List.set_cons_zero]
    rfl

/-! ## Walks in a trap -/

/-- **A walk in a trap does not end.** -/
theorem checkedWalkFrom_of_trap {inside : Point sp → Prop} (h : m.Trap g inner points inside)
    (hlast : m.HasCell last) (hinside : inside last) (fuel : Nat) (spill : List (Point sp)) :
    m.checkedWalkFrom g fuel inner (points ++ [last]) spill = .error .unfinished := by
  induction fuel generalizing points last spill with
  | zero => rfl
  | succ fuel ih =>
    obtain ⟨s, hstep, hnext, hkept, hmem⟩ := h.goes_on last hinside
    have htrap := h.step hmem
    have hopen : (points ++ [({ last with states := s.movers } : Point sp)]).findIdx?
        (· == s.next) = none := by
      refine List.findIdx?_eq_none_iff.mpr fun p hp ↦ ?_
      rw [beq_eq_false_iff_ne]
      rintro rfl
      exact htrap.not_mem _ hnext hp
    rw [checkedWalkFrom_succ hlast, hstep]
    dsimp only
    rw [hopen, hkept]
    exact ih htrap (stable_hasCell.step _ _ _ hlast hstep).1 hnext _

/-! ## All walks -/

private theorem checkedWalkFrom_eq {fuel more : Nat} (h : Walk.Lap g m inner base points last rest)
    (hcell : ∀ p ∈ last :: rest, m.HasCell p) (hcount : ∀ p, (last :: rest).count p ≤ 2)
    (hfuel : m.stepsLeft inner (last :: rest).length < fuel) :
    m.checkedWalkFrom g (fuel + more) inner (points ++ [last]) spill =
      (m.walkFrom g fuel inner points last spill (last :: rest)).outcome := by
  induction fuel generalizing inner base points last rest spill with
  | zero => exact absurd hfuel (Nat.not_lt_zero _)
  | succ fuel ih =>
    have hlast := hcell last List.mem_cons_self
    rw [Nat.succ_add, checkedWalkFrom_succ hlast, walkFrom]
    cases hstep : m.step? g inner last with
    | none => rfl
    | some s =>
      dsimp only
      cases hfind : (points ++ [({ last with states := s.movers } : Point sp)]).findIdx?
          (· == s.next) with
      | some start => rfl
      | none =>
        dsimp only
        have hopen := not_mem_of_findIdx? hfind
        have hnext := (stable_hasCell.step _ _ _ hlast hstep).1
        split
        · -- something new is committed
          rename_i hgrown
          have hless := stepsLeft_grown (m := m) hgrown (last :: rest).length
          refine ih (.single hopen) (List.forall_mem_singleton.mpr hnext)
            (fun p ↦ List.count_le_length.trans (Nat.le_succ 1)) ?_
          rw [List.length_singleton]
          omega
        · rename_i hkept
          rw [Ne, not_not] at hkept
          rw [hkept]
          split
          · -- the third arrival
            rename_i hcount'
            obtain ⟨inside, hinside, htrap⟩ := h.exists_trap hstep hopen hkept hcount'
            exact checkedWalkFrom_of_trap htrap hnext hinside _ _
          · rename_i hcount'
            have hcell' : ∀ p ∈ s.next :: last :: rest, m.HasCell p :=
              List.forall_mem_cons.mpr ⟨hnext, hcell⟩
            have hcount'' : ∀ p, (s.next :: last :: rest).count p ≤ 2 := fun p ↦ by
              rw [List.count_cons]
              split
              · rename_i heq
                rw [← beq_iff_eq.mp heq]
                omega
              · exact hcount p
            have hless := stepsLeft_arrived inner hcell' hcount''
            exact ih (h.step hstep hopen hkept) hcell' hcount'' (by omega)

/-- **A walk is in range**, for however many steps it is watched. It ends as it should, unless it is
endless. -/
theorem checkedWalk_eq (more : Nat) (inner : StateSet sp) (hseed : m.HasCell seed) :
    m.checkedWalk g more inner seed = (m.walk g inner seed).outcome :=
  checkedWalkFrom_eq (.single List.not_mem_nil)
    (List.forall_mem_singleton.mpr hseed) (fun _ ↦ List.count_le_length.trans (Nat.le_succ 1))
    (m.stepsLeft_lt_fuel inner)

end Maze

end JusticeViolation

import JusticeViolation.Proofs.Path.Circuit
import JusticeViolation.Proofs.Path.Lap
import JusticeViolation.Proofs.Path.Live
import JusticeViolation.Proofs.Path.Trace

/-!
# Walks close

In a live maze every walk closes. It is never stuck, so it could only go on for ever, or be given up
because it arrived at a point for a third time without a new commitment. Then it would be in a trap,
and go round in it. Going around, it would step to the first column of some row; such a step leaves
no state behind, so the point that it left would be among those that the walk has been at, and no
point of a trap is.
-/

namespace JusticeViolation

variable {sp : Space} {g : Game sp} {m : Maze sp}

/-- **There are no traps in a live maze.** -/
theorem Maze.Live.false_of_trap {inner : StateSet sp} {points : List (Point sp)}
    {inside : Point sp → Prop} {p : Point sp} (hlive : m.Live g) (hs : g.Shaped) (hm : m.Fits g)
    (hk : m.Commits g inner) (hfree : g.AnswerFree g.envTrans) (h : m.Trap g inner points inside)
    (hp : inside p) (hfits : p.Fits m) (hne : ∃ i, i ∈ p.states) : False := by
  have hnext : ∀ q : Point sp, (inside q ∧ q.Fits m ∧ ∃ i, i ∈ q.states) → ∃ r,
      (∃ s, m.step? g inner q = some s ∧ s.next = r) ∧
        inside r ∧ r.Fits m ∧ ∃ i, i ∈ r.states := fun q ⟨hq, hqfits, _⟩ ↦ by
    obtain ⟨s, hstep, hinside, -⟩ := h.goes_on q hq
    exact ⟨s.next, ⟨s, hstep, rfl⟩, hinside, (sound_of_step? hs hm hqfits hk hstep).next_fits,
      exists_mem_next hs hm hqfits hk hfree hstep⟩
  have : Nonempty (Point sp) := ⟨p⟩
  choose! f hf using hnext
  -- the endless walk
  have hall : ∀ k, inside (f^[k] p) ∧ (f^[k] p).Fits m ∧ ∃ i, i ∈ (f^[k] p).states := by
    intro k
    induction k with
    | zero => exact ⟨hp, hfits, hne⟩
    | succ k ih =>
      rw [Function.iterate_succ_apply']
      exact (hf _ ih).2
  have hsteps : ∀ k, ∃ s, m.step? g inner (f^[k] p) = some s ∧ s.next = f^[k + 1] p := fun k ↦ by
    rw [Function.iterate_succ_apply']
    exact (hf _ (hall k)).1
  have hrow : ∀ k, (f^[k] p).row < m.cells.length := fun k ↦ by
    obtain ⟨-, hqfits, i, hi⟩ := hall k
    exact row_lt_of_mem_cellAt (hqfits.subset i hi)
  obtain ⟨l, hl, -, hzero⟩ := exists_visit (p := fun k ↦ f^[k] p) (fun k ↦ by
    obtain ⟨s, hstep, hnext⟩ := hsteps k
    exact hnext ▸ leads_of_step? hstep) hrow (hrow 0) 1
  obtain ⟨k, rfl⟩ : ∃ k, l = k + 1 := ⟨l - 1, by omega⟩
  obtain ⟨s, hstep, hnext⟩ := hsteps k
  obtain ⟨hinside, hqfits, -⟩ := hall k
  have hmovers := hlive.movers_eq hm hqfits hk hs hstep (hnext ▸ hzero)
  -- this step leaves its point as it was
  obtain ⟨t, ht, -, -, hmem⟩ := h.goes_on _ hinside
  rw [hstep, Option.some.injEq] at ht
  rw [← ht, hmovers] at hmem
  exact h.not_mem _ hinside hmem

/-! ## Arrivals -/

/-- What holds of a walk in a live maze on a lap: its arrivals have states, and none occurs three
times. -/
structure Walk.Arriving (g : Game sp) (m : Maze sp) (inner : StateSet sp)
    (base points : List (Point sp)) (last : Point sp) (rest : List (Point sp)) : Prop
    extends Walk.Lap g m inner base points last rest where
  fits : ∀ p ∈ last :: rest, p.Fits m ∧ ∃ i, i ∈ p.states
  count_le : ∀ p, (last :: rest).count p ≤ 2

namespace Walk.Arriving

variable {inner : StateSet sp} {base points rest : List (Point sp)} {last : Point sp} {s : Step sp}

/-- A walk begins anew with every commitment. -/
theorem single (hp : last.Fits m) (hne : ∃ i, i ∈ last.states) (hopen : last ∉ points) :
    Arriving g m inner points points last [] where
  toLap := .single hopen
  fits := fun _ hp' ↦ List.mem_singleton.mp hp' ▸ ⟨hp, hne⟩
  count_le := fun _ ↦ (List.count_le_length).trans (Nat.le_succ 1)

variable (h : Arriving g m inner base points last rest)

include h

section Step

variable (hs : g.Shaped) (hm : m.Fits g) (hlive : m.Live g) (hk : m.Commits g inner)
  (hfree : g.AnswerFree g.envTrans) (hstep : m.step? g inner last = some s)
  (hopen : s.next ∉ points ++ [({ last with states := s.movers } : Point sp)])
  (hkept : inner ∪ s.chosen = inner)

include hs hm hlive hk hfree hstep hopen hkept

/-- **No third arrival.** -/
theorem count_lt : (last :: rest).count s.next < 2 := by
  by_contra hcount
  obtain ⟨inside, hinside, htrap⟩ := h.exists_trap hstep hopen hkept (Nat.not_lt.mp hcount)
  have hlast := (h.fits last List.mem_cons_self).1
  exact hlive.false_of_trap hs hm hk hfree htrap hinside
    (Maze.sound_of_step? hs hm hlast hk hstep).next_fits
    (Maze.exists_mem_next hs hm hlast hk hfree hstep)

/-- A step that commits nothing new and does not close the walk. -/
theorem step : Arriving g m inner base (points ++ [{ last with states := s.movers }]) s.next
    (last :: rest) where
  toLap := h.toLap.step hstep hopen hkept
  fits := by
    have hlast := (h.fits last List.mem_cons_self).1
    exact List.forall_mem_cons.mpr ⟨⟨(Maze.sound_of_step? hs hm hlast hk hstep).next_fits,
      Maze.exists_mem_next hs hm hlast hk hfree hstep⟩, h.fits⟩
  count_le := fun p ↦ by
    rw [List.count_cons]
    split
    · rename_i heq
      rw [← beq_iff_eq.mp heq]
      exact h.count_lt hs hm hlive hk hfree hstep hopen hkept
    · exact h.count_le p

end Step

theorem hasCell : ∀ p ∈ last :: rest, m.HasCell p := fun p hp ↦ by
  obtain ⟨hfits, i, hi⟩ := h.fits p hp
  exact Maze.hasCell_of_mem (hfits.subset i hi)

end Walk.Arriving

namespace Maze

/-! ## Every walk closes -/

section Closes

variable (hs : g.Shaped) (hm : m.Fits g) (hlive : m.Live g) (hfree : g.AnswerFree g.envTrans)

include hs hm hlive hfree

private theorem closes_walkFrom {before inner : StateSet sp} {seed last : Point sp}
    {base points spill rest : List (Point sp)} {fuel : Nat}
    (h : Walk.Going g m before seed inner points last spill)
    (ha : Walk.Arriving g m inner base points last rest)
    (hfuel : m.stepsLeft inner (last :: rest).length < fuel) :
    ∃ start, (m.walkFrom g fuel inner points last spill (last :: rest)).ending = .closed start := by
  induction fuel generalizing inner last base points spill rest with
  | zero => exact absurd hfuel (Nat.not_lt_zero _)
  | succ fuel ih =>
    rw [walkFrom]
    obtain ⟨hfits, i, hi⟩ := ha.fits last List.mem_cons_self
    split
    · rename_i hnone
      exact absurd hnone (hlive.step?_ne_none hm hfits h.commits hi)
    · rename_i s hstep
      have hgoing := h.step hs hm hstep
      dsimp only
      split
      · exact ⟨_, rfl⟩
      · rename_i hfind
        have hopen := not_mem_of_findIdx? hfind
        split
        · -- something new is committed
          rename_i hgrown
          refine ih hgoing (.single hgoing.last_fits
            (exists_mem_next hs hm hfits h.commits hfree hstep) hopen) ?_
          have hless := stepsLeft_grown (m := m) hgrown (last :: rest).length
          rw [List.length_singleton]
          omega
        · rename_i hkept
          rw [Ne, not_not] at hkept
          have hcount := ha.count_lt hs hm hlive h.commits hfree hstep hopen hkept
          rw [if_neg (Nat.not_le.mpr hcount)]
          rw [hkept] at hgoing ⊢
          have harriving := ha.step hs hm hlive h.commits hfree hstep hopen hkept
          have hless := stepsLeft_arrived inner harriving.hasCell harriving.count_le
          exact ih hgoing harriving (by omega)

/-- **Every walk closes.** -/
theorem exists_closed_walk {before : StateSet sp} {seed : Point sp} (hk : m.Commits g before)
    (hseed : seed.Fits m) (hne : ∃ i, i ∈ seed.states) :
    ∃ start, (m.walk g before seed).ending = .closed start :=
  closes_walkFrom hs hm hlive hfree (Walk.going_seed hk hseed)
    (.single hseed hne List.not_mem_nil) (m.stepsLeft_lt_fuel before)

/-- **Every walk makes a path.** It goes around a circle in the end, and visits every row. -/
theorem violation?_walk {before : StateSet sp} {seed : Point sp} (hk : m.Commits g before)
    (hseed : seed.Fits m) (hne : ∃ i, i ∈ seed.states) :
    (m.walk g before seed).violation? m = none := by
  obtain ⟨start, hend⟩ := exists_closed_walk hs hm hlive hfree hk hseed hne
  obtain ⟨i, hi⟩ := hne
  exact violation?_walk_of_closed (row_lt_of_mem_cellAt (hseed.subset i hi)) hend

end Closes

end Maze

end JusticeViolation

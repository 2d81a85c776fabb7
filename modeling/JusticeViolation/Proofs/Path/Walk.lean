import JusticeViolation.Proofs.Path.Coverage

/-!
# One walk through a maze

A walk drops nothing that it comes to. In a game whose parts fit together there is more to say of
what it keeps: its committed choices keep to the order of the cells, its points lead to one another,
and whatever they or the spilled points hold is led to. Committed steps from points of the walk lead
to it from a state of the seed.
-/

namespace JusticeViolation

variable {sp : Space} {g : Game sp} {m : Maze sp}

/-- How a state comes to be held: it is there from the `start`, or a committed step leads to it from
a state that is kept. -/
inductive Led (g : Game sp) (inner : StateSet sp) (start kept : Nat → Prop) : Nat → Prop
  | start {i : Nat} (h : start i) : Led g inner start kept i
  | step {v i : Nat} (hled : Led g inner start kept v) (hkept : kept v) (hin : v ∈ inner)
      (hsys : v ∈ g.sysTrans) (hnext : sp.next v = sp.now i) : Led g inner start kept i

/-- States that are led to a start are led to what it leads to. -/
theorem Led.trans {inner grown : StateSet sp} {start start' kept kept' : Nat → Prop} {i : Nat}
    (h : Led g inner start kept i) (hgrown : ∀ v ∈ inner, v ∈ grown)
    (hkept : ∀ v, kept v → kept' v) (hstart : ∀ i, start i → Led g grown start' kept' i) :
    Led g grown start' kept' i := by
  induction h with
  | start h => exact hstart _ h
  | step _ hv hin hsys hnext ih => exact .step ih (hkept _ hv) (hgrown _ hin) hsys hnext

theorem Led.mono {inner grown : StateSet sp} {start kept kept' : Nat → Prop} {i : Nat}
    (h : Led g inner start kept i) (hgrown : ∀ v ∈ inner, v ∈ grown)
    (hkept : ∀ v, kept v → kept' v) : Led g grown start kept' i :=
  h.trans hgrown hkept fun _ ↦ .start

/-- Whatever is led to, there is something that it is led to from. -/
theorem Led.exists_start {inner : StateSet sp} {start kept : Nat → Prop} {i : Nat}
    (h : Led g inner start kept i) : ∃ j, start j := by
  induction h with
  | start h => exact ⟨_, h⟩
  | step _ _ _ _ _ ih => exact ih

namespace Walk

/-- What holds of a walk under way from `seed`, which began with the choices `before`: it has been
at `points`, it has arrived at `last`, and it has spilled `spill`. -/
structure Going (g : Game sp) (m : Maze sp) (before : StateSet sp) (seed : Point sp)
    (inner : StateSet sp) (points : List (Point sp)) (last : Point sp)
    (spill : List (Point sp)) : Prop where
  commits : m.Commits g inner
  before_subset : ∀ v ∈ before, v ∈ inner
  placed : ∀ v ∈ inner, v ∈ before ∨ m.Inside v
  last_fits : last.Fits m
  settled : ∀ p ∈ points, p.Settled g m inner
  spill_fits : ∀ p ∈ spill, p.Fits m
  first : (points = [] ∧ last = seed) ∨
    ∃ p rest, points = p :: rest ∧ ∀ i ∈ p.states, i ∈ seed.states
  held : ∀ i ∈ seed.states, Held points i ∨ i ∈ last.states ∨ Held spill i
  answered : ∀ v ∈ inner, v ∈ g.sysTrans → v ∈ before ∨ sp.next v ∈ m.escape ∨
    Held points (sp.next v) ∨ sp.next v ∈ last.states ∨ Held spill (sp.next v)
  led : ∀ i, Held points i ∨ i ∈ last.states ∨ Held spill i →
    Led g inner (· ∈ seed.states) (Held points) i
  chain : (points ++ [last]).IsChain m.Leads

/-- What holds of a walk that has closed. -/
structure Closed (g : Game sp) (m : Maze sp) (before : StateSet sp) (seed : Point sp)
    (w : Walk sp) (start : Nat) : Prop where
  commits : m.Commits g w.inner
  before_subset : ∀ v ∈ before, v ∈ w.inner
  placed : ∀ v ∈ w.inner, v ∈ before ∨ m.Inside v
  settled : ∀ p ∈ w.points, p.Settled g m w.inner
  spill_fits : ∀ p ∈ w.spill, p.Fits m
  first : ∃ i ∈ seed.states, Held w.points i
  held : ∀ i ∈ seed.states, Held w.points i ∨ Held w.spill i
  answered : ∀ v ∈ w.inner, v ∈ g.sysTrans → v ∈ before ∨ sp.next v ∈ m.escape ∨
    Held w.points (sp.next v) ∨ Held w.spill (sp.next v)
  led : ∀ i, Held w.points i ∨ Held w.spill i →
    Led g w.inner (· ∈ seed.states) (Held w.points) i
  returns : ∃ p, w.points[start]? = some p ∧ (w.points ++ [p]).IsChain m.Leads

variable {before inner : StateSet sp} {seed last : Point sp} {points spill : List (Point sp)}
  {s : Step sp}

theorem Going.covering (h : Going g m before seed inner points last spill) :
    Covering g m before seed inner points last spill := { h with }

theorem going_seed (hk : m.Commits g before) (hp : seed.Fits m) :
    Going g m before seed before [] seed [] := {
  Covering.start hp with
  commits := hk
  placed := fun _ hv ↦ Or.inl hv
  led := by
    rintro i (⟨_, hp, -⟩ | hi | ⟨_, hp, -⟩)
    · exact absurd hp List.not_mem_nil
    · exact .start hi
    · exact absurd hp List.not_mem_nil
  chain := List.isChain_singleton seed }

/-- What is held after a step is led to: it was held before, or it follows from the movers. -/
private theorem Going.led_step (h : Going g m before seed inner points last spill)
    (hs : s.Sound g m inner last) (i : Nat)
    (hi : Held (points ++ [{ last with states := s.movers }]) i ∨ i ∈ s.next.states ∨
      Held (spill ++ s.spill) i) :
    Led g (inner ∪ s.chosen) (· ∈ seed.states)
      (Held (points ++ [{ last with states := s.movers }])) i := by
  have hold : ∀ i, Held points i ∨ i ∈ last.states ∨ Held spill i →
      Led g (inner ∪ s.chosen) (· ∈ seed.states)
        (Held (points ++ [{ last with states := s.movers }])) i := fun i hi ↦
    (h.led i hi).mono (fun v hv ↦ StateSet.mem_union.mpr (Or.inl hv)) fun _ ↦ Held.append_left
  have hnew : ∀ i, i ∈ s.next.states ∨ Held s.spill i →
      Led g (inner ∪ s.chosen) (· ∈ seed.states)
        (Held (points ++ [{ last with states := s.movers }])) i := fun i hi ↦ by
    rcases hs.origin i hi with hi | ⟨v, hv, hc, hsys, hnext⟩
    · exact hold i (Or.inr (Or.inl hi))
    · exact .step (hold v (Or.inr (Or.inl (hs.movers_subset v hv)))) (Held.of_mem hv)
        (StateSet.mem_union.mpr (Or.inr hc)) hsys hnext
  rcases hi with hi | hi | hi
  · rcases Held.of_append hi with hi | hi
    · exact hold i (Or.inl hi)
    · exact hold i (Or.inr (Or.inl (hs.movers_subset i (Held.singleton.mp hi))))
  · exact hnew i (Or.inl hi)
  · rcases Held.of_append hi with hi | hi
    · exact hold i (Or.inr (Or.inr hi))
    · exact hnew i (Or.inr hi)

/-- **A step keeps a walk going.** -/
theorem Going.step (hg : g.Shaped) (hm : m.Fits g)
    (h : Going g m before seed inner points last spill) (hstep : m.step? g inner last = some s) :
    Going g m before seed (inner ∪ s.chosen) (points ++ [{ last with states := s.movers }]) s.next
      (spill ++ s.spill) := by
  have hs := Maze.sound_of_step? hg hm h.last_fits h.commits hstep
  exact {
    h.covering.step hm.ofStates hstep with
    commits := hs.commits
    placed := fun v hv ↦ (StateSet.mem_union.mp hv).elim (h.placed v) fun hv ↦
      Or.inr (hs.inside v hv)
    led := h.led_step hs
    chain := hs.leads.isChain h.chain s.movers }

theorem Closed.covers {w : Walk sp} {start : Nat} (h : Closed g m before seed w start) :
    w.Covers g m before seed := { h with }

/-- A walk that is back at one of its points has closed. -/
theorem Going.closed {w : Walk sp} (h : Going g m before seed w.inner points last w.spill)
    (hends : w.EndsAt points last) {start : Nat} (hend : w.ending = .closed start) :
    Closed g m before seed w start := by
  obtain ⟨hpoints, hstart⟩ := hends.closed start hend
  exact {
    h.covering.covers hends hend with
    commits := h.commits
    placed := h.placed
    led := fun i hi ↦ hpoints ▸ h.led i ((hpoints ▸ hi).imp_right Or.inr)
    returns := ⟨last, hpoints ▸ hstart, hpoints ▸ h.chain⟩ }

end Walk

namespace Maze

/-- **What a closed walk has done.** -/
theorem closed_walk {before : StateSet sp} {seed : Point sp} (hs : g.Shaped) (hm : m.Fits g)
    (hk : m.Commits g before) (hp : seed.Fits m) {start : Nat}
    (hend : (m.walk g before seed).ending = .closed start) :
    Walk.Closed g m before seed (m.walk g before seed) start := by
  obtain ⟨points, last, h, hends⟩ := m.walk_induction (g := g)
    (P := Walk.Going g m before seed) (fun h hstep ↦ h.step hs hm hstep) before seed
    (Walk.going_seed hk hp)
  exact h.closed hends hend

end Maze

end JusticeViolation

import JusticeViolation.Proofs.Path.Run
import JusticeViolation.Proofs.Path.Step

/-!
# Commitments are kept

Tracing only adds choices. A step commits a choice for a state that has one already only if it is
the same; so what has been committed is never revised, and no state ever has two moves. This needs
no more than that cells and seeds are sets of states, and it holds whether the tracing finds paths
or breaks off: every step keeps it, hence every walk, hence all of them.
-/

namespace JusticeViolation

variable {sp : Space} {g : Game sp} {m : Maze sp}

/-! ## What is kept -/

namespace Game

variable {before inner later : StateSet sp}

/-- `inner` keeps the choices `before`: it has them all, and no others for their states. No state
has two moves, and the choices that were added are legal. -/
structure Keeps (g : Game sp) (before inner : StateSet sp) : Prop where
  subset : ∀ v ∈ before, v ∈ inner
  unchanged : ∀ v ∈ inner, v ∈ g.domain before → v ∈ before
  functional : g.Functional inner
  legal : ∀ v ∈ inner, v ∉ before → v ∈ g.envTrans

theorem Keeps.refl (h : g.Functional inner) : g.Keeps inner inner where
  subset := fun _ hv ↦ hv
  unchanged := fun _ hv _ ↦ hv
  functional := h
  legal := fun _ hv hno ↦ absurd hv hno

theorem Keeps.trans (h : g.Keeps before inner) (h' : g.Keeps inner later) :
    g.Keeps before later where
  subset := fun v hv ↦ h'.subset v (h.subset v hv)
  unchanged := fun v hv hdom ↦ by
    obtain ⟨hlt, w, hw, hwv⟩ := mem_domain.mp hdom
    have hinner := h'.unchanged v hv (mem_domain.mpr ⟨hlt, w, h.subset w hw, hwv⟩)
    exact h.unchanged v hinner hdom
  functional := h'.functional
  legal := fun v hv hno ↦ by
    by_cases hinner : v ∈ inner
    · exact h.legal v hinner hno
    · exact h'.legal v hv hinner

end Game

/-- All points hold sets of states. -/
def CurrentPoints (ps : List (Point sp)) : Prop := ∀ p ∈ ps, p.states.Current

namespace CurrentPoints

variable {ps qs : List (Point sp)} {p : Point sp}

theorem nil : CurrentPoints ([] : List (Point sp)) := fun _ hp ↦ absurd hp List.not_mem_nil

theorem append (hp : CurrentPoints ps) (hq : CurrentPoints qs) : CurrentPoints (ps ++ qs) :=
  fun p h ↦ (List.mem_append.mp h).elim (hp p) (hq p)

theorem concat (hp : CurrentPoints ps) (h : p.states.Current) : CurrentPoints (ps ++ [p]) :=
  hp.append fun _ hq ↦ List.mem_singleton.mp hq ▸ h

theorem unionAll (h : CurrentPoints ps) : (StateSet.unionAll (ps.map (·.states))).Current :=
  .unionAll fun s hs ↦ by
    obtain ⟨p, hp, rfl⟩ := List.mem_map.mp hs
    exact h p hp

end CurrentPoints

theorem current_nextSeed? {covered : StateSet sp} {ps rest : List (Point sp)} {seed : Point sp}
    (h : nextSeed? covered ps = some (seed, rest)) (hc : covered.Current)
    (hps : CurrentPoints ps) : seed.states.Current ∧ CurrentPoints rest := by
  obtain ⟨passed, p, rfl, rfl, -⟩ := exists_of_nextSeed?_eq_some h
  obtain ⟨-, hps⟩ := List.forall_mem_append.mp hps
  obtain ⟨hp, hrest⟩ := List.forall_mem_cons.mp hps
  exact ⟨hp.sdiff hc, hrest⟩

/-! ## Steps, walks, tracings -/

namespace Maze

variable {inner : StateSet sp} {seed last : Point sp} {points spill seeds pending : List (Point sp)}

/-- **A step keeps what is committed.** -/
theorem keeps_step {s : Step sp} (hlast : last.states.Current) (hinner : g.Functional inner)
    (h : m.step? g inner last = some s) : g.Keeps inner (inner ∪ s.chosen) where
  subset := fun v hv ↦ StateSet.mem_union.mpr (Or.inl hv)
  unchanged := fun v hv hdom ↦ by
    rcases StateSet.mem_union.mp hv with hv | hv
    · exact hv
    · obtain ⟨-, -, -, -, -, -, hnew⟩ := mem_chosen hlast h hv
      exact hnew.resolve_right fun hno ↦ hno hdom
  functional := functional_step hlast hinner h
  legal := fun v hv hno ↦ by
    obtain ⟨_, _, -, hforce, -⟩ :=
      mem_chosen hlast h ((StateSet.mem_union.mp hv).resolve_left hno)
    exact Game.mem_envTrans_of_mem_forcing hforce

variable (hcells : ∀ row column, (cellAt m.cells row column).Current)

include hcells

/-- **A walk keeps what is committed**, however it ends. -/
theorem keeps_walk (hinner : g.Functional inner) (hseed : seed.states.Current) :
    g.Keeps inner (m.walk g inner seed).inner ∧ CurrentPoints (m.walk g inner seed).points ∧
      CurrentPoints (m.walk g inner seed).spill := by
  obtain ⟨points, last, ⟨hkeeps, hpoints, hlast, hspill⟩, hends⟩ := m.walk_induction (g := g)
    (P := fun grown points last spill ↦ g.Keeps inner grown ∧ CurrentPoints points ∧
      last.states.Current ∧ CurrentPoints spill)
    (fun ⟨hkeeps, hpoints, hlast, hspill⟩ hstep ↦ by
      obtain ⟨hmovers, hnext, hmore⟩ := current_step hcells hlast hstep
      exact ⟨hkeeps.trans (keeps_step hlast hkeeps.functional hstep), hpoints.concat hmovers, hnext,
        hspill.append hmore⟩)
    inner seed ⟨.refl hinner, .nil, hseed, .nil⟩
  refine ⟨hkeeps, ?_, hspill⟩
  rcases hends.points_eq with h | h
  · exact h ▸ hpoints
  · exact h ▸ hpoints.concat hlast

/-- **Commitments are never revised.** After all paths have been traced, or the tracing has broken
off, the choices that were there are kept, their states have no others, no state has two moves, and
what was added is legal. -/
theorem keeps_trace (hseeds : ∀ p ∈ seeds, p.states.Current) (hinner : g.Functional inner) :
    g.Keeps inner (m.trace g inner seeds).inner := by
  obtain ⟨pending, covered, t, ⟨hkeeps, hpending, hcovered⟩, -, hends⟩ := m.trace_induction (g := g)
    (P := fun pending covered t ↦ g.Keeps inner t.inner ∧ CurrentPoints pending ∧ covered.Current)
    (fun ⟨hkeeps, hpending, hcovered⟩ hseed _ ↦ by
      obtain ⟨hstart, hrest⟩ := current_nextSeed? hseed hcovered hpending
      obtain ⟨hwalk, hpoints, hspill⟩ := keeps_walk hcells hkeeps.functional hstart
      exact ⟨hkeeps.trans hwalk, hrest.append hspill, hcovered.union hpoints.unionAll⟩)
    inner seeds ⟨.refl hinner, hseeds, .empty _⟩
  generalize m.trace g inner seeds = result at hends ⊢
  cases hends with
  | done => exact hkeeps
  | exhausted => exact hkeeps
  | broken hseed =>
    obtain ⟨hstart, -⟩ := current_nextSeed? hseed hcovered hpending
    exact hkeeps.trans (keeps_walk hcells hkeeps.functional hstart).1

end Maze

/-- The choices of a bit that stays set. -/
def Game.stubborn : StateSet bits := .literal ⟨0⟩ 1 ∩ .literal ⟨1⟩ 1

theorem Game.functional_stubborn : turns.Functional stubborn := by
  intro v hv w hw _ x hx
  obtain rfl : x = ⟨1⟩ := List.mem_singleton.mp hx
  have hset : ∀ u ∈ stubborn, bits.digit u ⟨1⟩ = 1 := fun u hu ↦
    ((StateSet.mem_literal (by decide)).mp (StateSet.mem_inter.mp hu).2).2
  rw [hset v hv, hset w hw]

/-- On the roundabout, where the bit that stays set has to be cleared, the path that sets it gets
stuck in row 1. Its choice for setting it is kept, and so is the choice to leave it set. -/
theorem Maze.keeps_trace_roundabout :
    let t := roundabout.trace Game.turns Game.stubborn [⟨0, 1, cellAt roundabout.cells 0 1⟩]
    t.violation = some (.pathStuck 0 1 1) ∧ Game.turns.Keeps Game.stubborn t.inner ∧
      ∃ v ∈ t.inner, v ∉ Game.stubborn :=
  ⟨by decide +kernel, keeps_trace ofStates_roundabout.current_cell
    (fun _ hp ↦ List.mem_singleton.mp hp ▸ ofStates_roundabout.current_cell 0 1)
    Game.functional_stubborn, ⟨2, by decide +kernel, by decide +kernel⟩⟩

end JusticeViolation

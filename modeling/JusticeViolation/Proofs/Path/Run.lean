import JusticeViolation.Path
import JusticeViolation.Proofs.StateSet.Membership

/-!
# What steps keep, and what walks keep

A walk is a loop of steps and a tracing a loop of walks. What every step keeps holds when a walk
ends, and what every walk that makes a path keeps holds when a tracing ends. These are the two
inductions over the bounds of the loops. What is shown of all walks or of all tracings is shown by
them, from what holds of one step or of one walk, unless it is about the bounds themselves.
-/

namespace JusticeViolation

variable {sp : Space} {g : Game sp} {m : Maze sp}

/-! ## Walks -/

/-- The walk ends having been at `points` and arrived at `last`; if it has closed, it had been at
`last`. -/
structure Walk.EndsAt (w : Walk sp) (points : List (Point sp)) (last : Point sp) : Prop where
  points_eq : w.points = points ∨ w.points = points ++ [last]
  closed : ∀ start, w.ending = .closed start → w.points = points ∧ points[start]? = some last

/-- A walk without a violation has closed. -/
theorem Walk.exists_closed {w : Walk sp} (h : w.violation? m = none) :
    ∃ start, w.ending = .closed start := by
  unfold violation? at h
  dsimp only at h
  split at h
  · simp at h
  · simp at h
  · exact ⟨_, ‹_›⟩

namespace Maze

theorem getElem?_of_findIdx? {points : List (Point sp)} {next : Point sp} {start : Nat}
    (h : points.findIdx? (· == next) = some start) : points[start]? = some next := by
  obtain ⟨hlt, heq, -⟩ := List.findIdx?_eq_some_iff_getElem.mp h
  rw [List.getElem?_eq_getElem hlt, beq_iff_eq.mp heq]

theorem not_mem_of_findIdx? {points : List (Point sp)} {next : Point sp}
    (h : points.findIdx? (· == next) = none) : next ∉ points := fun hmem ↦ by
  simpa using List.findIdx?_eq_none_iff.mp h next hmem

section Walks

variable {P : (inner : StateSet sp) → (points : List (Point sp)) → (last : Point sp) →
  (spill : List (Point sp)) → Prop}
  (hstep : ∀ {inner points last spill s}, P inner points last spill →
    m.step? g inner last = some s →
      P (inner ∪ s.chosen) (points ++ [{ last with states := s.movers }]) s.next (spill ++ s.spill))

include hstep

/-- **What every step keeps holds when the walk ends.** -/
theorem walkFrom_induction (fuel : Nat) (inner : StateSet sp) {points spill : List (Point sp)}
    {last : Point sp} (arrivals : List (Point sp)) (h : P inner points last spill) :
    ∃ points' last', P (m.walkFrom g fuel inner points last spill arrivals).inner points' last'
        (m.walkFrom g fuel inner points last spill arrivals).spill ∧
      (m.walkFrom g fuel inner points last spill arrivals).EndsAt points' last' := by
  induction fuel generalizing inner points last spill arrivals with
  | zero => exact ⟨points, last, h, .inr rfl, fun _ hend ↦ nomatch hend⟩
  | succ fuel ih =>
    rw [walkFrom]
    split
    · exact ⟨points, last, h, .inr rfl, fun _ hend ↦ nomatch hend⟩
    · rename_i s hs
      have hnext := hstep h hs
      dsimp only
      split
      · rename_i start hfind
        refine ⟨_, s.next, hnext, .inl rfl, fun start' hend ↦ ⟨rfl, ?_⟩⟩
        obtain rfl : start = start' := Ending.closed.inj hend
        exact getElem?_of_findIdx? hfind
      · split
        · exact ih _ _ hnext
        · split
          · exact ⟨_, s.next, hnext, .inl rfl, fun _ hend ↦ nomatch hend⟩
          · exact ih _ _ hnext

theorem walk_induction (before : StateSet sp) (seed : Point sp) (h : P before [] seed []) :
    ∃ points last, P (m.walk g before seed).inner points last (m.walk g before seed).spill ∧
      (m.walk g before seed).EndsAt points last :=
  walkFrom_induction hstep m.fuel before [seed] h

end Walks

variable {inner : StateSet sp} {seed : Point sp}

/-- The cycle of a closed walk begins at one of its points. -/
theorem exists_first_of_closed {start : Nat} (h : (m.walk g inner seed).ending = .closed start) :
    ∃ p, (m.walk g inner seed).points[start]? = some p := by
  obtain ⟨points, last, -, hends⟩ := m.walk_induction (g := g) (P := fun _ _ _ _ ↦ True)
    (fun _ _ ↦ trivial) inner seed trivial
  obtain ⟨hpoints, hstart⟩ := hends.closed start h
  exact ⟨last, hpoints ▸ hstart⟩

/-- A walk has been somewhere. -/
theorem points_walk_ne_nil : (m.walk g inner seed).points ≠ [] := by
  have key : ∀ (fuel : Nat) (inner : StateSet sp) (points : List (Point sp)) (last : Point sp)
      (spill arrivals : List (Point sp)),
      (m.walkFrom g fuel inner points last spill arrivals).points ≠ [] := by
    intro fuel
    induction fuel with
    | zero => exact fun _ _ _ _ _ ↦ List.append_ne_nil_of_right_ne_nil _ (List.cons_ne_nil _ _)
    | succ fuel ih =>
      intro inner points last spill arrivals
      rw [walkFrom]
      split
      · exact List.append_ne_nil_of_right_ne_nil _ (List.cons_ne_nil _ _)
      · dsimp only
        split
        · exact List.append_ne_nil_of_right_ne_nil _ (List.cons_ne_nil _ _)
        · split
          · exact ih _ _ _ _ _
          · split
            · exact List.append_ne_nil_of_right_ne_nil _ (List.cons_ne_nil _ _)
            · exact ih _ _ _ _ _
  exact key _ _ _ _ _ _

end Maze

/-! ## The next seed -/

section Seeds

variable {covered : StateSet sp} {ps rest : List (Point sp)} {seed : Point sp}

/-- Nothing is left to be traced if all states are covered. -/
theorem mem_covered_of_nextSeed?_eq_none (h : nextSeed? covered ps = none) :
    ∀ p ∈ ps, ∀ i ∈ p.states, i ∈ covered := by
  induction ps with
  | nil => exact fun _ hp ↦ absurd hp List.not_mem_nil
  | cons p ps ih =>
    rw [nextSeed?] at h
    split at h
    · rename_i hempty
      rw [StateSet.isEmpty_iff] at hempty
      refine List.forall_mem_cons.mpr ⟨fun i hi ↦ ?_, ih h⟩
      by_contra hno
      exact hempty i (StateSet.mem_sdiff.mpr ⟨hi, hno⟩)
    · cases h

/-- **The next seed** is the first point with states that are not covered, narrowed to these. -/
theorem exists_of_nextSeed?_eq_some (h : nextSeed? covered ps = some (seed, rest)) :
    ∃ passed p, ps = passed ++ p :: rest ∧ seed = { p with states := p.states \ covered } ∧
      (∃ i, i ∈ seed.states) ∧ ∀ q ∈ passed, ∀ i ∈ q.states, i ∈ covered := by
  induction ps with
  | nil => cases h
  | cons p ps ih =>
    rw [nextSeed?] at h
    split at h
    · rename_i hempty
      rw [StateSet.isEmpty_iff] at hempty
      obtain ⟨passed, q, rfl, hseed, hne, hpassed⟩ := ih h
      refine ⟨p :: passed, q, rfl, hseed, hne, List.forall_mem_cons.mpr ⟨fun i hi ↦ ?_, hpassed⟩⟩
      by_contra hno
      exact hempty i (StateSet.mem_sdiff.mpr ⟨hi, hno⟩)
    · rename_i hne
      rw [Bool.not_eq_true, StateSet.isEmpty_eq_false_iff] at hne
      rw [Option.some.injEq, Prod.mk.injEq] at h
      obtain ⟨rfl, rfl⟩ := h
      exact ⟨[], p, rfl, rfl, hne, fun _ hq ↦ absurd hq List.not_mem_nil⟩

end Seeds

/-! ## Tracings -/

namespace Tracing

/-- A tracing and one more walk. -/
def add (t : Tracing sp) (w : Walk sp) : Tracing sp :=
  { t with walks := t.walks ++ [w], inner := w.inner }

/-- How a tracing ends that has come to `t`: nothing pending is left to be traced, or there are as
many walks as allowed, or the next walk makes no path. -/
inductive Ends (g : Game sp) (m : Maze sp) (limit : Nat) (pending : List (Point sp))
    (covered : StateSet sp) (t : Tracing sp) : Tracing sp → Prop
  | done (hdone : nextSeed? covered pending = none) : Ends g m limit pending covered t t
  | exhausted (hlimit : limit ≤ t.walks.length) : Ends g m limit pending covered t t
  | broken {seed : Point sp} {rest : List (Point sp)} {v : Violation}
      (hseed : nextSeed? covered pending = some (seed, rest))
      (hv : (m.walk g t.inner seed).violation? m = some v) :
      Ends g m limit pending covered t
        { t.add (m.walk g t.inner seed) with violation := some v }

end Tracing

namespace Maze

section Tracings

variable {P : (pending : List (Point sp)) → (covered : StateSet sp) → Tracing sp → Prop}
  (hwalk : ∀ {pending covered t seed rest}, P pending covered t →
    nextSeed? covered pending = some (seed, rest) → (m.walk g t.inner seed).violation? m = none →
      P (rest ++ (m.walk g t.inner seed).spill)
        (covered ∪ .unionAll ((m.walk g t.inner seed).points.map (·.states)))
        (t.add (m.walk g t.inner seed)))

include hwalk

private theorem traceFrom_induction (fuel : Nat) {pending : List (Point sp)}
    {covered : StateSet sp} {t : Tracing sp} (h : P pending covered t)
    (hnone : t.violation = none) :
    ∃ pending' covered' t', P pending' covered' t' ∧ t'.violation = none ∧
      Tracing.Ends g m (t.walks.length + fuel) pending' covered' t'
        (m.traceFrom g fuel pending covered t) := by
  induction fuel generalizing pending covered t with
  | zero => exact ⟨pending, covered, t, h, hnone, .exhausted (Nat.le_refl _)⟩
  | succ fuel ih =>
    rw [traceFrom]
    split
    · exact ⟨pending, covered, t, h, hnone, .done ‹_›⟩
    · rename_i seed rest hseed
      dsimp only
      split
      · exact ⟨pending, covered, t, h, hnone, .broken hseed ‹_›⟩
      · obtain ⟨pending', covered', t', h', hnone', hends⟩ := ih (hwalk h hseed ‹_›) hnone
        refine ⟨pending', covered', t', h', hnone', ?_⟩
        rw [Tracing.add, List.length_append, List.length_singleton, Nat.add_assoc,
          Nat.add_comm 1] at hends
        exact hends

/-- **What every walk keeps holds when the tracing ends.** -/
theorem trace_induction (before : StateSet sp) (seeds : List (Point sp))
    (h : P seeds ∅ ⟨[], before, none⟩) :
    ∃ pending covered t, P pending covered t ∧ t.violation = none ∧
      Tracing.Ends g m (sp.size + 1) pending covered t (m.trace g before seeds) := by
  obtain ⟨pending, covered, t, ht, hnone, hends⟩ := traceFrom_induction hwalk (sp.size + 1) h rfl
  rw [List.length_nil, Nat.zero_add] at hends
  exact ⟨pending, covered, t, ht, hnone, hends⟩

end Tracings

variable {before : StateSet sp} {seeds : List (Point sp)}

/-- All walks of a tracing that has not broken off have closed. -/
theorem closed_trace (hend : (m.trace g before seeds).violation = none) :
    ∀ w ∈ (m.trace g before seeds).walks, ∃ start, w.ending = .closed start := by
  obtain ⟨pending, covered, t, hclosed, -, hends⟩ := m.trace_induction (g := g)
    (P := fun _ _ t ↦ ∀ w ∈ t.walks, ∃ start, w.ending = .closed start)
    (fun h _ hok w hw ↦ (List.mem_append.mp hw).elim (h w)
      fun hw ↦ Walk.exists_closed (List.mem_singleton.mp hw ▸ hok))
    before seeds fun _ hw ↦ absurd hw List.not_mem_nil
  generalize m.trace g before seeds = result at hend hends ⊢
  cases hends with
  | done => exact hclosed
  | exhausted => exact hclosed
  | broken => cases hend

/-- What breaks a tracing off is the violation of a walk. -/
theorem exists_of_violation_trace {v : Violation}
    (h : (m.trace g before seeds).violation = some v) : ∃ w : Walk sp, w.violation? m = some v := by
  obtain ⟨pending, covered, t, -, hnone, hends⟩ := m.trace_induction (g := g)
    (P := fun _ _ _ ↦ True) (fun _ _ _ ↦ trivial) before seeds trivial
  generalize m.trace g before seeds = result at h hends
  cases hends with
  | done => cases hnone.symm.trans h
  | exhausted => cases hnone.symm.trans h
  | broken _ hv => exact ⟨_, hv.trans h⟩

end Maze

end JusticeViolation

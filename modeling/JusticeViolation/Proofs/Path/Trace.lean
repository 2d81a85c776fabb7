import JusticeViolation.Proofs.Path.Walk

/-!
# All paths of a maze

Paths are traced from seeds, and from all that earlier walks have spilled, until nothing is left
that is not covered. Every walk covers a state of its seed, which was not covered before, so the
number of valuations bounds the number of walks. If no walk breaks off, the points of the walks hold
the seeds and every answer to a committed choice that stays in the maze, and whatever they hold is
led to from the seeds.
-/

namespace JusticeViolation

variable {sp : Space} {g : Game sp} {m : Maze sp}

/-- The next seed and what is behind it were pending. -/
theorem held_of_nextSeed?_eq_some {covered : StateSet sp} {ps rest : List (Point sp)}
    {seed : Point sp} (h : nextSeed? covered ps = some (seed, rest)) (i : Nat)
    (hi : i ∈ seed.states ∨ Held rest i) : Held ps i := by
  obtain ⟨passed, p, rfl, rfl, -⟩ := exists_of_nextSeed?_eq_some h
  refine Held.append_right ?_
  rcases hi with hi | ⟨q, hq, hi⟩
  · exact ⟨p, List.mem_cons_self, (StateSet.mem_sdiff.mp hi).1⟩
  · exact ⟨q, List.mem_cons_of_mem p hq, hi⟩

namespace Tracing

/-- What holds of a tracing under way: `pending` is what is left to be traced, `covered` what the
points of the walks hold. -/
structure Going (g : Game sp) (m : Maze sp) (before : StateSet sp) (seeds pending : List (Point sp))
    (covered : StateSet sp) (t : Tracing sp) : Prop where
  commits : m.Commits g t.inner
  before_subset : ∀ v ∈ before, v ∈ t.inner
  placed : ∀ v ∈ t.inner, v ∈ before ∨ m.Inside v
  settled : ∀ w ∈ t.walks, ∀ p ∈ w.points, p.Settled g m t.inner
  pending_fits : ∀ p ∈ pending, p.Fits m
  current_covered : covered.Current
  mem_covered : ∀ i, i ∈ covered ↔ ∃ w ∈ t.walks, Held w.points i
  held : ∀ i, Held seeds i → i ∈ covered ∨ Held pending i
  answered : ∀ v ∈ t.inner, v ∈ g.sysTrans → v ∈ before ∨ sp.next v ∈ m.escape ∨
    sp.next v ∈ covered ∨ Held pending (sp.next v)
  led : ∀ i, i ∈ covered ∨ Held pending i → Led g t.inner (Held seeds) (· ∈ covered) i
  violation_eq : t.violation = none

/-- What holds of a tracing that has not broken off. -/
structure Sound (g : Game sp) (m : Maze sp) (before : StateSet sp) (seeds : List (Point sp))
    (t : Tracing sp) : Prop where
  commits : m.Commits g t.inner
  before_subset : ∀ v ∈ before, v ∈ t.inner
  placed : ∀ v ∈ t.inner, v ∈ before ∨ m.Inside v
  settled : ∀ w ∈ t.walks, ∀ p ∈ w.points, p.Settled g m t.inner
  held : ∀ i, Held seeds i → ∃ w ∈ t.walks, Held w.points i
  answered : ∀ v ∈ t.inner, v ∈ g.sysTrans → v ∈ before ∨ sp.next v ∈ m.escape ∨
    ∃ w ∈ t.walks, Held w.points (sp.next v)
  led : ∀ i, (∃ w ∈ t.walks, Held w.points i) →
    Led g t.inner (Held seeds) (fun v ↦ ∃ w ∈ t.walks, Held w.points v) i

variable {before covered : StateSet sp} {seeds pending rest : List (Point sp)} {t : Tracing sp}
  {seed : Point sp}

theorem Going.sound (h : Going g m before seeds pending covered t)
    (hdone : ∀ i, Held pending i → i ∈ covered) : t.Sound g m before seeds where
  commits := h.commits
  before_subset := h.before_subset
  placed := h.placed
  settled := h.settled
  held := fun i hi ↦ (h.mem_covered i).mp ((h.held i hi).elim (fun hc ↦ hc) (hdone i))
  answered := fun v hv hsys ↦ by
    rcases h.answered v hv hsys with hbefore | hescape | hcov | hpend
    · exact Or.inl hbefore
    · exact Or.inr (Or.inl hescape)
    · exact Or.inr (Or.inr ((h.mem_covered _).mp hcov))
    · exact Or.inr (Or.inr ((h.mem_covered _).mp (hdone _ hpend)))
  led := fun i hi ↦ (h.led i (Or.inl ((h.mem_covered i).mpr hi))).mono (fun _ hv ↦ hv)
    fun v hv ↦ (h.mem_covered v).mp hv

/-- What is covered or pending after a walk is led to: the walk begins with states that were
pending. -/
private theorem Going.led_walk (h : Going g m before seeds pending covered t) {w : Walk sp}
    (hseed : nextSeed? covered pending = some (seed, rest)) {start : Nat}
    (hw : Walk.Closed g m t.inner seed w start) (i : Nat)
    (hi : i ∈ covered ∪ .unionAll (w.points.map (·.states)) ∨ Held (rest ++ w.spill) i) :
    Led g w.inner (Held seeds) (· ∈ covered ∪ .unionAll (w.points.map (·.states))) i := by
  have hold : ∀ i, i ∈ covered ∨ Held pending i → Led g w.inner (Held seeds)
      (· ∈ covered ∪ .unionAll (w.points.map (·.states))) i := fun i hi ↦
    (h.led i hi).mono hw.before_subset fun v hv ↦ StateSet.mem_union.mpr (Or.inl hv)
  have hnew : ∀ i, Held w.points i ∨ Held w.spill i → Led g w.inner (Held seeds)
      (· ∈ covered ∪ .unionAll (w.points.map (·.states))) i := fun i hi ↦
    (hw.led i hi).trans (fun _ hv ↦ hv)
      (fun v hv ↦ StateSet.mem_union.mpr (Or.inr (mem_unionAll_states.mpr hv)))
      fun j hj ↦ hold j (Or.inr (held_of_nextSeed?_eq_some hseed j (Or.inl hj)))
  rcases hi with hi | hi
  · rcases StateSet.mem_union.mp hi with hi | hi
    · exact hold i (Or.inl hi)
    · exact hnew i (Or.inl (mem_unionAll_states.mp hi))
  · rcases hi.of_append with hi | hi
    · exact hold i (Or.inr (held_of_nextSeed?_eq_some hseed i (Or.inr hi)))
    · exact hnew i (Or.inr hi)

/-- **A walk that closes keeps a tracing going.** -/
theorem Going.walk (h : Going g m before seeds pending covered t)
    (hcovering : Covering g m before seeds pending covered t) {w : Walk sp}
    (hseed : nextSeed? covered pending = some (seed, rest)) (hwalk : m.walk g t.inner seed = w)
    {start : Nat} (hw : Walk.Closed g m t.inner seed w start) :
    Going g m before seeds (rest ++ w.spill) (covered ∪ .unionAll (w.points.map (·.states)))
      (t.add w) := {
  hcovering.walk hseed hwalk hw.covers with
  commits := hw.commits
  placed := fun v hv ↦ (hw.placed v hv).elim (h.placed v) Or.inr
  led := h.led_walk hseed hw
  violation_eq := h.violation_eq }

theorem going_start (hk : m.Commits g before) (hseeds : ∀ p ∈ seeds, p.Fits m) :
    Going g m before seeds seeds ∅ ⟨[], before, none⟩ := {
  Covering.start hseeds with
  commits := hk
  placed := fun _ hv ↦ Or.inl hv
  led := fun i hi ↦ .start (hi.resolve_left (StateSet.not_mem_empty i))
  violation_eq := rfl }

end Tracing

namespace Maze

variable {before : StateSet sp} {seeds : List (Point sp)}

/-- A tracing under way, and how it ends. -/
theorem going_trace (hs : g.Shaped) (hm : m.Fits g) (hk : m.Commits g before)
    (hseeds : ∀ p ∈ seeds, p.Fits m) :
    ∃ pending covered t, Tracing.Going g m before seeds pending covered t ∧
      Tracing.Covering g m before seeds pending covered t ∧
      Tracing.Ends g m (sp.size + 1) pending covered t (m.trace g before seeds) := by
  obtain ⟨pending, covered, t, ⟨hgoing, hcovering⟩, -, hends⟩ := m.trace_induction (g := g)
    (P := fun pending covered t ↦ Tracing.Going g m before seeds pending covered t ∧
      Tracing.Covering g m before seeds pending covered t)
    (fun ⟨hgoing, hcovering⟩ hseed hok ↦ by
      obtain ⟨start, hclosed⟩ := Walk.exists_closed hok
      obtain ⟨hfits, -⟩ := nextSeed?_eq_some hseed hgoing.current_covered hgoing.pending_fits
      have hw := closed_walk hs hm hgoing.commits hfits hclosed
      exact ⟨hgoing.walk hcovering hseed rfl hw, hcovering.walk hseed rfl hw.covers⟩)
    before seeds ⟨Tracing.going_start hk hseeds, .start hseeds⟩
  exact ⟨pending, covered, t, hgoing, hcovering, hends⟩

/-- **What has been traced if no walk broke off.** -/
theorem sound_trace (hs : g.Shaped) (hm : m.Fits g) (hk : m.Commits g before)
    (hseeds : ∀ p ∈ seeds, p.Fits m) (hend : (m.trace g before seeds).violation = none) :
    (m.trace g before seeds).Sound g m before seeds := by
  obtain ⟨pending, covered, t, hgoing, hcovering, hends⟩ := going_trace hs hm hk hseeds
  generalize m.trace g before seeds = result at hend hends ⊢
  cases hends with
  | done hdone =>
    exact hgoing.sound fun i ⟨p, hp, hi⟩ ↦ mem_covered_of_nextSeed?_eq_none hdone p hp i hi
  | exhausted hlimit => exact absurd hcovering.length_le_size (Nat.not_le.mpr hlimit)
  | broken => cases hend

/-- If every walk closes as it should, none breaks the tracing off. -/
theorem violation_trace (hs : g.Shaped) (hm : m.Fits g) (hk : m.Commits g before)
    (hseeds : ∀ p ∈ seeds, p.Fits m)
    (hwalk : ∀ inner seed, m.Commits g inner → seed.Fits m → (∃ i, i ∈ seed.states) →
      (∀ v ∈ before, v ∈ inner) → (m.walk g inner seed).violation? m = none) :
    (m.trace g before seeds).violation = none := by
  obtain ⟨pending, covered, t, hgoing, -, hends⟩ := going_trace hs hm hk hseeds
  generalize m.trace g before seeds = result at hends ⊢
  cases hends with
  | done => exact hgoing.violation_eq
  | exhausted => exact hgoing.violation_eq
  | broken hseed hv =>
    obtain ⟨hfits, hne, -⟩ := nextSeed?_eq_some hseed hgoing.current_covered hgoing.pending_fits
    rw [hwalk t.inner _ hgoing.commits hfits hne hgoing.before_subset] at hv
    cases hv

end Maze

end JusticeViolation

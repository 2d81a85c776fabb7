import JusticeViolation.Split
import JusticeViolation.Proofs.Path.Run
import JusticeViolation.Proofs.Path.Step

/-!
# Nothing falls between the paths

A step narrows the point that it leaves, and follows only those answers that land in one cell. What
it drops and what it does not follow is spilled, and what is spilled is traced unless it is covered.
So whatever a walk comes to is held in the end by one of its points or by one that it spilled, and
so is every answer to a choice committed on the way, if it stays in the maze. If no walk breaks off,
the points of all walks, the *cover* of the tracing, hold everything: the seeds, whatever a walk
came to or spilled, and every answer to the choices of their own states but those that leave the
maze.

Of the maze this needs only that the cells and what lies around them are sets of states, and of the
game nothing.
-/

namespace JusticeViolation

variable {sp : Space} {g : Game sp} {m : Maze sp}

/-! ## What points hold -/

/-- One of the points holds the state `i`. -/
def Held (ps : List (Point sp)) (i : Nat) : Prop := ∃ p ∈ ps, i ∈ p.states

namespace Held

variable {ps qs : List (Point sp)} {p : Point sp} {i : Nat}

theorem append_left (h : Held ps i) : Held (ps ++ qs) i := by
  obtain ⟨p, hp, hi⟩ := h
  exact ⟨p, List.mem_append_left _ hp, hi⟩

theorem append_right (h : Held qs i) : Held (ps ++ qs) i := by
  obtain ⟨p, hp, hi⟩ := h
  exact ⟨p, List.mem_append_right _ hp, hi⟩

theorem of_append (h : Held (ps ++ qs) i) : Held ps i ∨ Held qs i := by
  obtain ⟨p, hp, hi⟩ := h
  exact (List.mem_append.mp hp).imp (fun hp ↦ ⟨p, hp, hi⟩) fun hp ↦ ⟨p, hp, hi⟩

theorem singleton : Held [p] i ↔ i ∈ p.states := by
  constructor
  · rintro ⟨q, hq, hi⟩
    exact List.mem_singleton.mp hq ▸ hi
  · exact fun hi ↦ ⟨p, List.mem_singleton_self p, hi⟩

theorem of_mem (hi : i ∈ p.states) : Held (ps ++ [p]) i :=
  ⟨p, List.mem_append_right _ (List.mem_singleton_self p), hi⟩

/-- A state that a walk has come to stays held as it steps on. -/
theorem step {inner : StateSet sp} {points spill : List (Point sp)} {last : Point sp} {s : Step sp}
    (h : Held points i ∨ i ∈ last.states ∨ Held spill i) (hstep : m.step? g inner last = some s) :
    Held (points ++ [{ last with states := s.movers }]) i ∨ i ∈ s.next.states ∨
      Held (spill ++ s.spill) i := by
  rcases h with h | hi | h
  · exact Or.inl h.append_left
  · rcases Maze.mem_movers_or_spilled hstep hi with hmove | hspill
    · exact Or.inl (Held.of_mem hmove)
    · exact Or.inr (Or.inr (Held.append_right hspill))
  · exact Or.inr (Or.inr h.append_left)

end Held

/-- What some points hold is the union of their states. -/
theorem mem_unionAll_states {ps : List (Point sp)} {i : Nat} :
    i ∈ StateSet.unionAll (ps.map (·.states)) ↔ Held ps i := by
  rw [StateSet.mem_unionAll]
  constructor
  · rintro ⟨s, hs, hi⟩
    obtain ⟨p, hp, rfl⟩ := List.mem_map.mp hs
    exact ⟨p, hp, hi⟩
  · rintro ⟨p, hp, hi⟩
    exact ⟨p.states, List.mem_map.mpr ⟨p, hp, rfl⟩, hi⟩

theorem mem_unionPoints {points : Path sp → List (Point sp)} {paths : List (Path sp)} {i : Nat} :
    i ∈ unionPoints points paths ↔ ∃ p ∈ paths, Held (points p) i := by
  rw [unionPoints, StateSet.mem_unionAll]
  constructor
  · rintro ⟨s, hs, hi⟩
    obtain ⟨p, hp, hs⟩ := List.mem_flatMap.mp hs
    obtain ⟨q, hq, rfl⟩ := List.mem_map.mp hs
    exact ⟨p, hp, q, hq, hi⟩
  · rintro ⟨p, hp, q, hq, hi⟩
    exact ⟨q.states, List.mem_flatMap.mpr ⟨p, hp, List.mem_map.mpr ⟨q, hq, rfl⟩⟩, hi⟩

/-- The point `p` is `q`, or some states of it. -/
def Point.Narrows (p q : Point sp) : Prop :=
  p.row = q.row ∧ p.column = q.column ∧ ∀ i ∈ p.states, i ∈ q.states

/-- A point of a walk: some states of a cell, all of them committed. -/
structure Point.Settled (g : Game sp) (m : Maze sp) (inner : StateSet sp) (p : Point sp) :
    Prop extends p.Fits m where
  exists_mem : ∃ i, i ∈ p.states
  committed : ∀ i ∈ p.states, i ∈ g.domain inner

theorem Point.Settled.mono {inner grown : StateSet sp} {p : Point sp} (h : p.Settled g m inner)
    (hsub : ∀ v ∈ inner, v ∈ grown) : p.Settled g m grown where
  toFits := h.toFits
  exists_mem := h.exists_mem
  committed := fun i hi ↦ by
    obtain ⟨hlt, v, hv, hvi⟩ := Game.mem_domain.mp (h.committed i hi)
    exact Game.mem_domain.mpr ⟨hlt, v, hsub v hv, hvi⟩

/-- The states that move on settle at the point that is left. -/
theorem Point.Fits.settled_movers {inner : StateSet sp} {p : Point sp} {s : Step sp}
    (h : p.Fits m) (hstep : m.step? g inner p = some s) :
    ({ p with states := s.movers } : Point sp).Settled g m (inner ∪ s.chosen) where
  current := Maze.movers_eq hstep ▸ Game.current_domain (g := g) s.chosen
  subset := fun i hi ↦ h.subset i (Maze.movers_subset h.current hstep hi)
  exists_mem := Maze.exists_mover hstep
  committed := fun i hi ↦ by
    rw [Game.domain_union, ← Maze.movers_eq hstep]
    exact StateSet.mem_union.mpr (Or.inr hi)

/-! ## One walk -/

namespace Walk

/-- A walk from `seed` under way, which has dropped nothing so far: it began with the choices
`before`, has been at `points`, has arrived at `last` and has spilled `spill`. -/
structure Covering (g : Game sp) (m : Maze sp) (before : StateSet sp) (seed : Point sp)
    (inner : StateSet sp) (points : List (Point sp)) (last : Point sp)
    (spill : List (Point sp)) : Prop where
  before_subset : ∀ v ∈ before, v ∈ inner
  last_fits : last.Fits m
  settled : ∀ p ∈ points, p.Settled g m inner
  spill_fits : ∀ p ∈ spill, p.Fits m
  first : (points = [] ∧ last = seed) ∨
    ∃ p rest, points = p :: rest ∧ ∀ i ∈ p.states, i ∈ seed.states
  held : ∀ i ∈ seed.states, Held points i ∨ i ∈ last.states ∨ Held spill i
  answered : ∀ v ∈ inner, v ∈ g.sysTrans → v ∈ before ∨ sp.next v ∈ m.escape ∨
    Held points (sp.next v) ∨ sp.next v ∈ last.states ∨ Held spill (sp.next v)

/-- A walk from `seed` that has closed and has dropped nothing. -/
structure Covers (g : Game sp) (m : Maze sp) (before : StateSet sp) (seed : Point sp)
    (w : Walk sp) : Prop where
  before_subset : ∀ v ∈ before, v ∈ w.inner
  settled : ∀ p ∈ w.points, p.Settled g m w.inner
  spill_fits : ∀ p ∈ w.spill, p.Fits m
  first : ∃ i ∈ seed.states, Held w.points i
  held : ∀ i ∈ seed.states, Held w.points i ∨ Held w.spill i
  answered : ∀ v ∈ w.inner, v ∈ g.sysTrans → v ∈ before ∨ sp.next v ∈ m.escape ∨
    Held w.points (sp.next v) ∨ Held w.spill (sp.next v)

variable {before inner : StateSet sp} {seed last : Point sp} {points spill : List (Point sp)}
  {s : Step sp} {w : Walk sp}

theorem Covering.start (hp : seed.Fits m) : Covering g m before seed before [] seed [] where
  before_subset := fun _ hv ↦ hv
  last_fits := hp
  settled := fun _ hp ↦ absurd hp List.not_mem_nil
  spill_fits := fun _ hp ↦ absurd hp List.not_mem_nil
  first := Or.inl ⟨rfl, rfl⟩
  held := fun _ hi ↦ Or.inr (Or.inl hi)
  answered := fun _ hv _ ↦ Or.inl hv

/-- **A step drops nothing.** -/
theorem Covering.step (hm : m.OfStates) (h : Covering g m before seed inner points last spill)
    (hstep : m.step? g inner last = some s) :
    Covering g m before seed (inner ∪ s.chosen) (points ++ [{ last with states := s.movers }])
      s.next (spill ++ s.spill) := by
  have hgrown : ∀ v ∈ inner, v ∈ inner ∪ s.chosen := fun v hv ↦ StateSet.mem_union.mpr (Or.inl hv)
  obtain ⟨hnext, hspill⟩ := Maze.fits_step hm h.last_fits hstep
  exact {
    before_subset := fun v hv ↦ hgrown v (h.before_subset v hv)
    last_fits := hnext
    settled := List.forall_mem_append.mpr ⟨fun p hp ↦ (h.settled p hp).mono hgrown,
      List.forall_mem_singleton.mpr (h.last_fits.settled_movers hstep)⟩
    spill_fits := List.forall_mem_append.mpr ⟨h.spill_fits, hspill⟩
    first := by
      rcases h.first with ⟨rfl, rfl⟩ | ⟨p, rest, rfl, hsub⟩
      · exact Or.inr ⟨_, [], rfl, fun _ ↦ Maze.movers_subset h.last_fits.current hstep⟩
      · exact Or.inr ⟨p, _, rfl, hsub⟩
    held := fun i hi ↦ Held.step (h.held i hi) hstep
    answered := by
      intro v hv hsys
      rcases StateSet.mem_union.mp hv with hv | hv
      · exact (h.answered v hv hsys).imp_right fun h ↦ h.imp_right fun h ↦ Held.step h hstep
      · refine Or.inr ((Maze.answered_step hm h.last_fits.current hstep hv hsys).imp_right ?_)
        exact fun h ↦ Or.inr (h.imp_right Held.append_right) }

/-- A walk that has closed arrived last at one of its points. -/
theorem Covering.covers (h : Covering g m before seed w.inner points last w.spill)
    (hends : w.EndsAt points last) {start : Nat} (hend : w.ending = .closed start) :
    w.Covers g m before seed := by
  obtain ⟨hpoints, hstart⟩ := hends.closed start hend
  have hlast : ∀ {i}, Held points i ∨ i ∈ last.states ∨ Held w.spill i →
      Held w.points i ∨ Held w.spill i := fun {i} hi ↦ by
    rcases hi with hi | hi | hi
    · exact Or.inl (hpoints ▸ hi)
    · exact Or.inl (hpoints ▸ ⟨last, List.mem_of_getElem? hstart, hi⟩)
    · exact Or.inr hi
  exact {
    before_subset := h.before_subset
    settled := hpoints ▸ h.settled
    spill_fits := h.spill_fits
    first := by
      rcases h.first with ⟨rfl, -⟩ | ⟨p, rest, rfl, hsub⟩
      · cases hstart
      · obtain ⟨i, hi⟩ := (h.settled p List.mem_cons_self).exists_mem
        exact ⟨i, hsub i hi, p, hpoints ▸ List.mem_cons_self, hi⟩
    held := fun i hi ↦ hlast (h.held i hi)
    answered := fun v hv hsys ↦ (h.answered v hv hsys).imp_right fun h ↦ h.imp_right hlast }

end Walk

namespace Maze

variable {before inner : StateSet sp} {seed last : Point sp} {points spill : List (Point sp)}

/-- **A walk that closes drops nothing.** -/
theorem covers_walk (hm : m.OfStates) (hp : seed.Fits m) {start : Nat}
    (hend : (m.walk g before seed).ending = .closed start) :
    (m.walk g before seed).Covers g m before seed := by
  obtain ⟨points, last, h, hends⟩ := m.walk_induction (g := g)
    (P := Walk.Covering g m before seed) (fun h hstep ↦ h.step hm hstep) before seed (.start hp)
  exact h.covers hends hend

/-- What a walk has come to once is held when it has closed. -/
theorem held_walkFrom {fuel : Nat} {arrivals : List (Point sp)} {i : Nat}
    (h : Held points i ∨ i ∈ last.states ∨ Held spill i) {start : Nat}
    (hend : (m.walkFrom g fuel inner points last spill arrivals).ending = .closed start) :
    Held (m.walkFrom g fuel inner points last spill arrivals).points i ∨
      Held (m.walkFrom g fuel inner points last spill arrivals).spill i := by
  obtain ⟨points', last', h', hends⟩ := m.walkFrom_induction (g := g)
    (P := fun _ points last spill ↦ Held points i ∨ i ∈ last.states ∨ Held spill i)
    (fun h hstep ↦ Held.step h hstep) fuel inner arrivals h
  obtain ⟨hpoints, hstart⟩ := hends.closed start hend
  rw [hpoints]
  rcases h' with hi | hi | hi
  · exact Or.inl hi
  · exact Or.inl ⟨last', List.mem_of_getElem? hstart, hi⟩
  · exact Or.inr hi

variable (g m) in
/-- The points that a walk comes to, each as it is on arrival, the last one being the one that
closes it. -/
def visitsFrom : (fuel : Nat) → (inner : StateSet sp) → (points : List (Point sp)) →
    (last : Point sp) → List (Point sp)
  | 0, _, _, last => [last]
  | fuel + 1, inner, points, last =>
    last :: match m.step? g inner last with
      | none => []
      | some s =>
        let points := points ++ [{ last with states := s.movers }]
        match points.findIdx? (· == s.next) with
        | some _ => [s.next]
        | none => visitsFrom fuel (inner ∪ s.chosen) points s.next

variable (g m) in
/-- The points that the walk from `seed` comes to, before it narrows them. -/
def visits (inner : StateSet sp) (seed : Point sp) : List (Point sp) :=
  m.visitsFrom g m.fuel inner [] seed

/-- A walk that closes does so by its next step, or it walks on. -/
theorem exists_step_of_closed {fuel : Nat} {arrivals : List (Point sp)} {start : Nat}
    (hend : (m.walkFrom g (fuel + 1) inner points last spill arrivals).ending = .closed start) :
    ∃ s, m.step? g inner last = some s ∧
      (m.visitsFrom g (fuel + 1) inner points last = [last, s.next] ∧
          (m.walkFrom g (fuel + 1) inner points last spill arrivals).points =
            points ++ [{ last with states := s.movers }] ∧
          (m.walkFrom g (fuel + 1) inner points last spill arrivals).points[start]? = some s.next ∨
        m.visitsFrom g (fuel + 1) inner points last = last :: m.visitsFrom g fuel
            (inner ∪ s.chosen) (points ++ [{ last with states := s.movers }]) s.next ∧
          ∃ arrivals', m.walkFrom g (fuel + 1) inner points last spill arrivals =
            m.walkFrom g fuel (inner ∪ s.chosen) (points ++ [{ last with states := s.movers }])
              s.next (spill ++ s.spill) arrivals') := by
  cases hstep : m.step? g inner last with
  | none =>
    rw [walkFrom, hstep] at hend
    cases hend
  | some s =>
    refine ⟨s, rfl, ?_⟩
    rw [walkFrom, hstep] at hend ⊢
    rw [visitsFrom, hstep]
    dsimp only at hend ⊢
    cases hfind : (points ++ [{ last with states := s.movers }]).findIdx? (· == s.next) with
    | some start' =>
      rw [hfind] at hend
      obtain rfl : start' = start := Ending.closed.inj hend
      exact Or.inl ⟨rfl, rfl, getElem?_of_findIdx? hfind⟩
    | none =>
      rw [hfind] at hend
      refine Or.inr ⟨rfl, ?_⟩
      dsimp only at hend ⊢
      split at hend
      · rename_i hgrown
        exact ⟨_, if_pos hgrown⟩
      · rename_i hgrown
        split at hend
        · cases hend
        · rename_i hcount
          exact ⟨_, by rw [if_neg hgrown, if_neg hcount]⟩

/-- Whatever a walk that closes comes to is held in the end. -/
theorem held_visitsFrom {fuel : Nat} {arrivals : List (Point sp)} {start : Nat}
    (hend : (m.walkFrom g fuel inner points last spill arrivals).ending = .closed start) {i : Nat}
    (hi : Held (m.visitsFrom g fuel inner points last) i) :
    Held (m.walkFrom g fuel inner points last spill arrivals).points i ∨
      Held (m.walkFrom g fuel inner points last spill arrivals).spill i := by
  induction fuel generalizing inner points last spill arrivals with
  | zero => cases hend
  | succ fuel ih =>
    obtain ⟨p, hp, hi⟩ := hi
    obtain ⟨s, -, ⟨hvisits, -, hstart⟩ | ⟨hvisits, arrivals', hwalk⟩⟩ :=
      exists_step_of_closed hend
    · rw [hvisits] at hp
      rcases List.mem_pair.mp hp with rfl | rfl
      · exact held_walkFrom (Or.inr (Or.inl hi)) hend
      · exact Or.inl ⟨s.next, List.mem_of_getElem? hstart, hi⟩
    · rw [hvisits] at hp
      rcases List.mem_cons.mp hp with rfl | hp
      · exact held_walkFrom (Or.inr (Or.inl hi)) hend
      · rw [hwalk] at hend ⊢
        exact ih hend ⟨p, hp, hi⟩

private theorem narrows_visitsFrom (hcells : ∀ row column, (cellAt m.cells row column).Current)
    {fuel : Nat} {arrivals : List (Point sp)} {start : Nat} (hlast : last.states.Current)
    (hend : (m.walkFrom g fuel inner points last spill arrivals).ending = .closed start) :
    ∃ rest first, (m.walkFrom g fuel inner points last spill arrivals).points = points ++ rest ∧
      (points ++ rest)[start]? = some first ∧
      List.Forall₂ Point.Narrows (rest ++ [first]) (m.visitsFrom g fuel inner points last) := by
  induction fuel generalizing inner points last spill arrivals with
  | zero => cases hend
  | succ fuel ih =>
    obtain ⟨s, hstep, ⟨hvisits, hpoints, hstart⟩ | ⟨hvisits, arrivals', hwalk⟩⟩ :=
      exists_step_of_closed hend
    · rw [hpoints] at hstart
      refine ⟨_, s.next, hpoints, hstart, hvisits ▸ .cons ⟨rfl, rfl, fun i ↦ ?_⟩ ?_⟩
      · exact movers_subset hlast hstep
      · exact .cons ⟨rfl, rfl, fun _ hi ↦ hi⟩ .nil
    · rw [hwalk] at hend ⊢
      obtain ⟨rest, first, hpoints, hstart, hnarrows⟩ :=
        ih (current_step hcells hlast hstep).2.1 hend
      rw [List.append_assoc] at hpoints hstart
      refine ⟨_, first, hpoints, hstart, hvisits ▸ .cons ⟨rfl, rfl, fun i ↦ ?_⟩ hnarrows⟩
      exact movers_subset hlast hstep

/-- The points of a walk that closes, and the one that closes it, are those that it comes to,
narrowed. -/
theorem narrows_visits (hcells : ∀ row column, (cellAt m.cells row column).Current)
    (hseed : seed.states.Current) {start : Nat}
    (hend : (m.walk g before seed).ending = .closed start) :
    ∃ first, (m.walk g before seed).points[start]? = some first ∧
      List.Forall₂ Point.Narrows ((m.walk g before seed).points ++ [first])
        (m.visits g before seed) := by
  obtain ⟨rest, first, hpoints, hstart, hnarrows⟩ := narrows_visitsFrom hcells hseed hend
  rw [List.nil_append] at hpoints hstart
  exact ⟨first, by rw [walk, hpoints]; exact hstart, by rw [walk, hpoints]; exact hnarrows⟩

end Maze

/-! ## All walks -/

section Seeds

variable {covered : StateSet sp} {ps rest : List (Point sp)} {seed : Point sp}

/-- The next seed holds states that are not covered, and nothing else is passed over. -/
theorem nextSeed?_eq_some (h : nextSeed? covered ps = some (seed, rest)) (hc : covered.Current)
    (hps : ∀ p ∈ ps, p.Fits m) :
    seed.Fits m ∧ (∃ i, i ∈ seed.states) ∧ (∀ i ∈ seed.states, i ∉ covered) ∧
      (∀ p ∈ rest, p.Fits m) ∧
      ∀ i, Held ps i → i ∈ covered ∨ i ∈ seed.states ∨ Held rest i := by
  obtain ⟨passed, p, rfl, rfl, hne, hpassed⟩ := exists_of_nextSeed?_eq_some h
  obtain ⟨-, hps⟩ := List.forall_mem_append.mp hps
  obtain ⟨hp, hrest⟩ := List.forall_mem_cons.mp hps
  refine ⟨⟨hp.current.sdiff hc, fun i hi ↦ hp.subset i (StateSet.mem_sdiff.mp hi).1⟩, hne,
    fun i hi ↦ (StateSet.mem_sdiff.mp hi).2, hrest, fun i hi ↦ ?_⟩
  rcases hi.of_append with ⟨q, hq, hiq⟩ | ⟨q, hq, hiq⟩
  · exact Or.inl (hpassed q hq i hiq)
  · rcases List.mem_cons.mp hq with rfl | hq
    · by_cases hcov : i ∈ covered
      · exact Or.inl hcov
      · exact Or.inr (Or.inl (StateSet.mem_sdiff.mpr ⟨hiq, hcov⟩))
    · exact Or.inr (Or.inr ⟨q, hq, hiq⟩)

end Seeds

namespace Tracing

/-- The cover of a tracing: what the points of its paths hold. -/
def cover (t : Tracing sp) : StateSet sp := unionPoints Path.points t.paths

theorem mem_cover {t : Tracing sp} {i : Nat} : i ∈ t.cover ↔ ∃ w ∈ t.walks, Held w.points i := by
  rw [cover, mem_unionPoints, paths]
  constructor
  · rintro ⟨p, hp, hi⟩
    obtain ⟨w, hw, rfl⟩ := List.mem_map.mp hp
    exact ⟨w, hw, hi⟩
  · rintro ⟨w, hw, hi⟩
    exact ⟨w.path, List.mem_map.mpr ⟨w, hw, rfl⟩, hi⟩

/-- A tracing from `seeds` under way, which has dropped nothing so far: it began with the choices
`before`, `pending` is what is left to be traced, and `covered` is the cover. Every walk has covered
something new. -/
structure Covering (g : Game sp) (m : Maze sp) (before : StateSet sp)
    (seeds pending : List (Point sp)) (covered : StateSet sp) (t : Tracing sp) : Prop where
  before_subset : ∀ v ∈ before, v ∈ t.inner
  settled : ∀ w ∈ t.walks, ∀ p ∈ w.points, p.Settled g m t.inner
  pending_fits : ∀ p ∈ pending, p.Fits m
  current_covered : covered.Current
  mem_covered : ∀ i, i ∈ covered ↔ ∃ w ∈ t.walks, Held w.points i
  length_le : t.walks.length ≤ covered.members.card
  begun : ∀ w ∈ t.walks, ∃ inner seed, seed.states.Current ∧ m.walk g inner seed = w
  held : ∀ i, Held seeds i → i ∈ covered ∨ Held pending i
  spilled : ∀ w ∈ t.walks, ∀ i, Held w.spill i → i ∈ covered ∨ Held pending i
  answered : ∀ v ∈ t.inner, v ∈ g.sysTrans → v ∈ before ∨ sp.next v ∈ m.escape ∨
    sp.next v ∈ covered ∨ Held pending (sp.next v)

/-- The cover of a tracing holds whatever its walks come to, of which their points are narrowed; and
what they commit keeps the play in the cover, or leads out of the maze. -/
structure Covers (g : Game sp) (m : Maze sp) (seeds : List (Point sp)) (t : Tracing sp) :
    Prop where
  seeds_subset : ∀ i, Held seeds i → i ∈ t.cover
  begun : ∀ w ∈ t.walks, ∃ inner seed first, m.walk g inner seed = w ∧
    List.Forall₂ Point.Narrows (w.points ++ [first]) (m.visits g inner seed)
  visits_subset : ∀ inner seed, m.walk g inner seed ∈ t.walks →
    ∀ i, Held (m.visits g inner seed) i → i ∈ t.cover
  spill_subset : ∀ w ∈ t.walks, ∀ i, Held w.spill i → i ∈ t.cover
  inside : ∀ i ∈ t.cover, m.Inside i
  committed : ∀ i ∈ t.cover, i ∈ g.domain t.inner
  image_subset : ∀ i ∈ g.image t.cover t.inner, i ∈ t.cover ∨ i ∈ m.escape

variable {before covered : StateSet sp} {seeds pending rest : List (Point sp)} {t : Tracing sp}
  {seed : Point sp} {w : Walk sp}

theorem Covering.start (hseeds : ∀ p ∈ seeds, p.Fits m) :
    Covering g m before seeds seeds ∅ ⟨[], before, none⟩ where
  before_subset := fun _ hv ↦ hv
  settled := fun _ hw ↦ absurd hw List.not_mem_nil
  pending_fits := hseeds
  current_covered := .empty _
  mem_covered := fun i ↦ iff_of_false (StateSet.not_mem_empty i) fun ⟨_, hw, _⟩ ↦
    absurd hw List.not_mem_nil
  length_le := Nat.zero_le _
  begun := fun _ hw ↦ absurd hw List.not_mem_nil
  held := fun _ hi ↦ Or.inr hi
  spilled := fun _ hw ↦ absurd hw List.not_mem_nil
  answered := fun _ hv _ ↦ Or.inl hv

/-- **A walk that closes drops nothing**, and covers something new. -/
theorem Covering.walk (h : Covering g m before seeds pending covered t)
    (hseed : nextSeed? covered pending = some (seed, rest)) (hwalk : m.walk g t.inner seed = w)
    (hw : w.Covers g m t.inner seed) :
    Covering g m before seeds (rest ++ w.spill) (covered ∪ .unionAll (w.points.map (·.states)))
      (t.add w) := by
  obtain ⟨hfits, -, hnew, hrest, hpend⟩ :=
    nextSeed?_eq_some hseed h.current_covered h.pending_fits
  set grown := covered ∪ .unionAll (w.points.map (·.states)) with hgrown
  have hold : ∀ i ∈ covered, i ∈ grown := fun i hi ↦ StateSet.mem_union.mpr (Or.inl hi)
  have hpoints : ∀ i, Held w.points i → i ∈ grown := fun i hi ↦
    StateSet.mem_union.mpr (Or.inr (mem_unionAll_states.mpr hi))
  -- what was pending is covered by now, or still pending
  have hmove : ∀ i, i ∈ covered ∨ Held pending i → i ∈ grown ∨ Held (rest ++ w.spill) i := by
    intro i hi
    have hi' : i ∈ covered ∨ i ∈ seed.states ∨ Held rest i := hi.elim Or.inl (hpend i)
    rcases hi' with hcov | hmem | hheld
    · exact Or.inl (hold i hcov)
    · exact (hw.held i hmem).imp (hpoints i) Held.append_right
    · exact Or.inr hheld.append_left
  exact {
    before_subset := fun v hv ↦ hw.before_subset v (h.before_subset v hv)
    settled := List.forall_mem_append.mpr
      ⟨fun w' hw' p hp ↦ (h.settled w' hw' p hp).mono hw.before_subset,
        List.forall_mem_singleton.mpr hw.settled⟩
    pending_fits := List.forall_mem_append.mpr ⟨hrest, hw.spill_fits⟩
    current_covered := by
      refine h.current_covered.union (.unionAll fun s hs ↦ ?_)
      obtain ⟨p, hp, rfl⟩ := List.mem_map.mp hs
      exact (hw.settled p hp).current
    mem_covered := fun i ↦ by
      rw [hgrown, StateSet.mem_union, h.mem_covered, mem_unionAll_states]
      simp only [add, List.mem_append, List.mem_singleton, or_and_right, exists_or, exists_eq_left]
    length_le := by
      obtain ⟨i, hi, hheld⟩ := hw.first
      have hcard := StateSet.card_members_lt hold (hpoints i hheld) (hnew i hi)
      have hlength := h.length_le
      rw [add, List.length_append, List.length_singleton]
      omega
    begun := List.forall_mem_append.mpr
      ⟨h.begun, List.forall_mem_singleton.mpr ⟨t.inner, seed, hfits.current, hwalk⟩⟩
    held := fun i hi ↦ hmove i (h.held i hi)
    spilled := List.forall_mem_append.mpr ⟨fun w' hw' i hi ↦ hmove i (h.spilled w' hw' i hi),
      List.forall_mem_singleton.mpr fun _ hi ↦ Or.inr hi.append_right⟩
    answered := by
      intro v hv hsys
      rcases hw.answered v hv hsys with hinner | hescape | hheld | hheld
      · exact (h.answered v hinner hsys).imp_right fun h ↦ h.imp_right (hmove _)
      · exact Or.inr (Or.inl hescape)
      · exact Or.inr (Or.inr (Or.inl (hpoints _ hheld)))
      · exact Or.inr (Or.inr (Or.inr hheld.append_right)) }

/-- Every walk has covered something new, and there are only so many states. -/
theorem Covering.length_le_size (h : Covering g m before seeds pending covered t) :
    t.walks.length ≤ sp.size :=
  h.length_le.trans (StateSet.card_members_le covered)

/-- When nothing is left to be traced, nothing has been dropped. -/
theorem Covering.covers (h : Covering g m before seeds pending covered t) (hm : m.OfStates)
    (hbefore : ∀ i, m.Inside i → i ∉ g.domain before)
    (hclosed : ∀ w ∈ t.walks, ∃ start, w.ending = .closed start)
    (hdone : nextSeed? covered pending = none) : t.Covers g m seeds := by
  have hcover : ∀ i, i ∈ covered ∨ Held pending i → i ∈ t.cover := fun i hi ↦ by
    refine mem_cover.mpr ((h.mem_covered i).mp (hi.elim id fun ⟨p, hp, hi⟩ ↦ ?_))
    exact mem_covered_of_nextSeed?_eq_none hdone p hp i hi
  have hsettled : ∀ i ∈ t.cover, m.Inside i ∧ i ∈ g.domain t.inner := fun i hi ↦ by
    obtain ⟨w, hw, p, hp, hi⟩ := mem_cover.mp hi
    have hset := h.settled w hw p hp
    exact ⟨⟨p.row, p.column, hset.subset i hi⟩, hset.committed i hi⟩
  have hcurrent : t.cover.Current := by
    have heq : t.cover = covered :=
      StateSet.ext_mem fun i ↦ mem_cover.trans (h.mem_covered i).symm
    exact heq ▸ h.current_covered
  exact {
    seeds_subset := fun i hi ↦ hcover i (h.held i hi)
    begun := fun w hw ↦ by
      obtain ⟨inner, seed, hcurrent', rfl⟩ := h.begun w hw
      obtain ⟨start, hend⟩ := hclosed _ hw
      obtain ⟨first, -, hnarrows⟩ := Maze.narrows_visits hm.current_cell hcurrent' hend
      exact ⟨inner, seed, first, rfl, hnarrows⟩
    visits_subset := fun inner seed hw i hi ↦ by
      obtain ⟨start, hend⟩ := hclosed _ hw
      rcases Maze.held_visitsFrom hend hi with hi | hi
      · exact mem_cover.mpr ⟨_, hw, hi⟩
      · exact hcover i (h.spilled _ hw i hi)
    spill_subset := fun w hw i hi ↦ hcover i (h.spilled w hw i hi)
    inside := fun i hi ↦ (hsettled i hi).1
    committed := fun i hi ↦ (hsettled i hi).2
    image_subset := fun i hi ↦ by
      obtain ⟨hlt, v, hv, hin, hsys, hnext⟩ := Game.mem_image.mp hi
      have hnow : sp.now (sp.next v) = sp.now i := by rw [Space.now_next, hnext]
      -- the choice is new, since the states of the maze had none before
      rcases h.answered v hin hsys with hold | hescape | hcov
      · exact absurd (Game.mem_domain_of_mem hold) (hbefore v (hsettled v hv).1)
      · exact Or.inr ((hm.current_escape.mem_iff_of_now_eq (sp.next_lt v) hlt hnow).mp hescape)
      · exact Or.inl ((hcurrent.mem_iff_of_now_eq (sp.next_lt v) hlt hnow).mp (hcover _ hcov)) }

end Tracing

namespace Maze

/-- **Nothing falls between the paths**: if all of them have been traced, from seeds in their cells
and without choices for the states of the maze, then their cover holds whatever they come to. -/
theorem covers_trace {before : StateSet sp} {seeds : List (Point sp)} (hm : m.OfStates)
    (hbefore : ∀ i, m.Inside i → i ∉ g.domain before) (hseeds : ∀ p ∈ seeds, p.Fits m)
    (hend : (m.trace g before seeds).violation = none) :
    (m.trace g before seeds).Covers g m seeds := by
  obtain ⟨pending, covered, t, h, -, hends⟩ := m.trace_induction (g := g)
    (P := Tracing.Covering g m before seeds)
    (fun h hseed hok ↦ by
      obtain ⟨start, hclosed⟩ := Walk.exists_closed hok
      obtain ⟨hfits, -⟩ := nextSeed?_eq_some hseed h.current_covered h.pending_fits
      exact h.walk hseed rfl (covers_walk hm hfits hclosed))
    before seeds (.start hseeds)
  have hclosed := closed_trace hend
  generalize m.trace g before seeds = result at hend hends hclosed ⊢
  cases hends with
  | done hdone => exact h.covers hm hbefore hclosed hdone
  | exhausted hlimit => exact absurd h.length_le_size (Nat.not_le.mpr hlimit)
  | broken => cases hend

end Maze

/-- The rows of a crossing: in the first column of row 1 the bit of the system is cleared. -/
def Maze.crossing : Maze bits where
  rank := 0
  cells := [[.literal ⟨4⟩ 0],
    [.literal ⟨4⟩ 1 ∩ .literal ⟨2⟩ 0, .literal ⟨4⟩ 1 ∩ .literal ⟨2⟩ 1]]
  escape := ∅

/-- The system clears its bit as soon as it is set. -/
def Game.blinking : Game bits :=
  { turns with sysTrans := .literal ⟨2⟩ 0 ∪ .literal ⟨3⟩ 0 }

theorem Maze.ofStates_crossing : crossing.OfStates where
  current_cell := current_cellAt fun cells hcells s hs ↦ by
    rcases List.mem_pair.mp hcells with rfl | rfl
    · exact List.mem_singleton.mp hs ▸ .literal (by decide) (by decide) _
    · rcases List.mem_pair.mp hs with rfl | rfl <;>
        exact .inter (.literal (by decide) (by decide) _) (.literal (by decide) (by decide) _)
  current_escape := .empty _

/-- At the crossing a path from row 0 goes through the second column of row 1, and leaves behind
the states in which the bit is set and the answers that clear it. A second path takes them up. -/
theorem Maze.covers_trace_crossing :
    let seeds : List (Point bits) := [⟨0, 0, cellAt crossing.cells 0 0⟩]
    let t := crossing.trace Game.blinking ∅ seeds
    t.violation = none ∧ t.Covers Game.blinking crossing seeds ∧ t.walks.length = 2 := by
  have hend : (crossing.trace Game.blinking ∅
      [⟨0, 0, cellAt crossing.cells 0 0⟩]).violation = none := by decide +kernel
  refine ⟨hend, covers_trace ofStates_crossing (fun i _ hi ↦ ?_) (fun p hp ↦ ?_) hend, ?_⟩
  · obtain ⟨-, v, hv, -⟩ := Game.mem_domain.mp hi
    exact StateSet.not_mem_empty v hv
  · rw [List.mem_singleton.mp hp]
    exact ⟨ofStates_crossing.current_cell 0 0, fun _ hi ↦ hi⟩
  · decide +kernel

end JusticeViolation

import JusticeViolation.Proofs.AssumptionGraph

/-!
# The groups of an assumption graph are a partition

The points of a cycle are looked at one after the other, and each takes for its row what it holds of
the states still left. So a state goes to the row of the first point that holds it, and the rows
divide among them what the points hold of the cycle. The invariant of the loop says this of the
points seen so far; nothing is assumed of the sets, and the rows matter only for looking up the
assumptions.
-/

namespace JusticeViolation

variable {sp : Space} {g : Game sp}

/-! ## Adding to a share -/

section AddShare

variable {row : Nat} {states : StateSet sp} {shares : List (Nat × StateSet sp)}

/-- The share of a row holds what it held, and what is added to it. -/
theorem exists_mem_addShare {r i : Nat} :
    (∃ share ∈ addShare row states shares, share.1 = r ∧ i ∈ share.2) ↔
      (∃ share ∈ shares, share.1 = r ∧ i ∈ share.2) ∨ row = r ∧ i ∈ states := by
  induction shares with
  | nil => simp [addShare]
  | cons first shares ih =>
    obtain ⟨r', s⟩ := first
    rw [addShare]
    split
    · simp only [List.mem_cons, exists_eq_or_imp]
      rw [or_comm]
    · split
      · rename_i heq
        simp only [List.mem_cons, exists_eq_or_imp, StateSet.mem_union, heq, and_or_left]
        rw [or_assoc, or_assoc, or_comm (a := r' = r ∧ i ∈ states)]
      · simp only [List.mem_cons, exists_eq_or_imp] at ih ⊢
        rw [ih, or_assoc]

theorem exists_mem_of_mem_addShare (hstates : ∃ i, i ∈ states)
    (hshares : ∀ share ∈ shares, ∃ i, i ∈ share.2) :
    ∀ share ∈ addShare row states shares, ∃ i, i ∈ share.2 := by
  induction shares with
  | nil =>
    intro share hshare
    exact List.mem_singleton.mp hshare ▸ hstates
  | cons first shares ih =>
    obtain ⟨r, s⟩ := first
    obtain ⟨⟨j, hj⟩, hrest⟩ := List.forall_mem_cons.mp hshares
    rw [addShare]
    split
    · exact List.forall_mem_cons.mpr ⟨hstates, hshares⟩
    · split
      · exact List.forall_mem_cons.mpr ⟨⟨j, StateSet.mem_union.mpr (Or.inl hj)⟩, hrest⟩
      · exact List.forall_mem_cons.mpr ⟨⟨j, hj⟩, ih hrest⟩

/-- Shares stay in the order of the rows, one for each. -/
theorem pairwise_addShare (h : shares.Pairwise fun a b ↦ a.1 < b.1) :
    (addShare row states shares).Pairwise fun a b ↦ a.1 < b.1 := by
  induction shares with
  | nil => exact List.pairwise_singleton _ _
  | cons first shares ih =>
    obtain ⟨r, s⟩ := first
    obtain ⟨hfirst, hrest⟩ := List.pairwise_cons.mp h
    rw [addShare]
    split
    · rename_i hlt
      refine List.pairwise_cons.mpr ⟨List.forall_mem_cons.mpr ⟨hlt, fun b hb ↦ ?_⟩, h⟩
      exact hlt.trans (hfirst b hb)
    · split
      · exact List.pairwise_cons.mpr ⟨hfirst, hrest⟩
      · refine List.pairwise_cons.mpr ⟨fun b hb ↦ ?_, ih hrest⟩
        rcases exists_of_mem_addShare hb with hrow | ⟨c, hc, hrow⟩
        · rw [hrow]
          omega
        · exact hrow ▸ hfirst c hc

end AddShare

namespace Game

/-! ## First claims -/

/-- The state `i` of a cycle is first held by a point of `row`. -/
def ClaimedBy (g : Game sp) (cycle : StateSet sp) (points : List (Point sp)) (row i : Nat) : Prop :=
  i ∈ g.strip cycle ∧ ∃ before p after, points = before ++ p :: after ∧ p.row = row ∧
    i ∈ g.strip p.states ∧ ∀ q ∈ before, i ∉ g.strip q.states

section ClaimedBy

variable {cycle : StateSet sp} {points : List (Point sp)} {row row' i : Nat}

/-- A state has one first point. -/
theorem ClaimedBy.row_eq (h : g.ClaimedBy cycle points row i)
    (h' : g.ClaimedBy cycle points row' i) : row = row' := by
  obtain ⟨-, before, p, after, rfl, rfl, hp, hbefore⟩ := h
  obtain ⟨-, before', p', after', heq, rfl, hp', hbefore'⟩ := h'
  rcases List.append_eq_append_iff.mp heq with ⟨mid, rfl, hmid⟩ | ⟨mid, rfl, hmid⟩
  · cases mid with
    | nil => rw [(List.cons.inj hmid).1]
    | cons q mid =>
      obtain rfl := (List.cons.inj hmid).1
      exact absurd hp (hbefore' _ (List.mem_append_right _ List.mem_cons_self))
  · cases mid with
    | nil => rw [(List.cons.inj hmid).1]
    | cons q mid =>
      obtain rfl := (List.cons.inj hmid).1
      exact absurd hp' (hbefore _ (List.mem_append_right _ List.mem_cons_self))

/-- What some point holds has a first one. -/
theorem exists_claimedBy_iff :
    (∃ row, g.ClaimedBy cycle points row i) ↔
      i ∈ g.strip cycle ∧ ∃ p ∈ points, i ∈ g.strip p.states := by
  constructor
  · rintro ⟨row, hi, before, p, after, rfl, -, hp, -⟩
    exact ⟨hi, p, List.mem_append_right _ List.mem_cons_self, hp⟩
  · rintro ⟨hi, hex⟩
    induction points with
    | nil =>
      obtain ⟨p, hp, -⟩ := hex
      exact absurd hp List.not_mem_nil
    | cons p points ih =>
      by_cases hp : i ∈ g.strip p.states
      · exact ⟨p.row, hi, [], p, points, rfl, rfl, hp, fun q hq ↦ absurd hq List.not_mem_nil⟩
      · obtain ⟨q, hq, hiq⟩ := hex
        have hne : q ≠ p := fun heq ↦ hp (heq ▸ hiq)
        obtain ⟨row, -, before, r, after, rfl, hrow, hr, hbefore⟩ :=
          ih ⟨q, (List.mem_cons.mp hq).resolve_left hne, hiq⟩
        exact ⟨row, hi, p :: before, r, after, rfl, hrow, hr,
          List.forall_mem_cons.mpr ⟨hp, hbefore⟩⟩

/-- One more point claims what no point before it holds. -/
theorem claimedBy_append_singleton {p : Point sp} :
    g.ClaimedBy cycle (points ++ [p]) row i ↔ g.ClaimedBy cycle points row i ∨
      p.row = row ∧ i ∈ g.strip p.states ∧ i ∈ g.strip cycle ∧
        ∀ q ∈ points, i ∉ g.strip q.states := by
  constructor
  · rintro ⟨hi, before, q, after, heq, rfl, hq, hbefore⟩
    rcases List.eq_nil_or_concat after with rfl | ⟨after, r, rfl⟩
    · obtain ⟨rfl, hpq⟩ := List.append_inj' heq rfl
      obtain rfl := (List.cons.inj hpq).1
      exact Or.inr ⟨rfl, hq, hi, hbefore⟩
    · rw [List.concat_eq_append, ← List.cons_append, ← List.append_assoc] at heq
      exact Or.inl ⟨hi, before, q, after, (List.append_inj' heq rfl).1, rfl, hq, hbefore⟩
  · rintro (⟨hi, before, q, after, rfl, hrow, hq, hbefore⟩ | ⟨hrow, hp, hi, hpoints⟩)
    · exact ⟨hi, before, q, after ++ [p], by simp, hrow, hq, hbefore⟩
    · exact ⟨hi, points, p, [], rfl, hrow, hp, hpoints⟩

end ClaimedBy

/-! ## The loop over the points -/

/-- What is left of a cycle, and how the rest is divided, when some points have been seen. -/
structure Divided (g : Game sp) (cycle : StateSet sp) (points : List (Point sp))
    (left : StateSet sp) (shares : List (Nat × StateSet sp)) : Prop where
  mem_left : ∀ i, i ∈ left ↔ i ∈ g.strip cycle ∧ ∀ q ∈ points, i ∉ g.strip q.states
  ascending : shares.Pairwise fun a b ↦ a.1 < b.1
  exists_mem : ∀ share ∈ shares, ∃ i, i ∈ share.2
  claimed : ∀ row i, (∃ share ∈ shares, share.1 = row ∧ i ∈ share.2) ↔
    g.ClaimedBy cycle points row i

namespace Divided

variable {cycle left : StateSet sp} {points : List (Point sp)} {shares : List (Nat × StateSet sp)}

theorem start (g : Game sp) (cycle : StateSet sp) : g.Divided cycle [] (g.strip cycle) [] where
  mem_left := fun i ↦ (and_iff_left fun q hq ↦ absurd hq List.not_mem_nil).symm
  ascending := .nil
  exists_mem := fun share hshare ↦ absurd hshare List.not_mem_nil
  claimed := fun row i ↦ by simp [ClaimedBy]

/-- **One point** takes its part of what is left. -/
theorem step (h : g.Divided cycle points left shares) (p : Point sp) :
    let part := g.strip p.states ∩ left
    let next := if part.isEmpty then (left, shares) else (left \ part, addShare p.row part shares)
    g.Divided cycle (points ++ [p]) next.1 next.2 := by
  have hpart : ∀ i, i ∈ g.strip p.states ∩ left ↔ i ∈ g.strip p.states ∧ i ∈ g.strip cycle ∧
      ∀ q ∈ points, i ∉ g.strip q.states := fun i ↦ by
    rw [StateSet.mem_inter, h.mem_left]
  dsimp only
  split
  · rename_i hempty
    rw [StateSet.isEmpty_iff] at hempty
    refine ⟨fun i ↦ ?_, h.ascending, h.exists_mem, fun row i ↦ ?_⟩
    · rw [h.mem_left, List.forall_mem_append, List.forall_mem_singleton, ← and_assoc]
      exact (and_iff_left_of_imp fun hi hp ↦ hempty i ((hpart i).mpr ⟨hp, hi⟩)).symm
    · rw [h.claimed, claimedBy_append_singleton, ← hpart,
        or_iff_left fun hi ↦ hempty i hi.2]
  · rename_i hne
    rw [Bool.not_eq_true, StateSet.isEmpty_eq_false_iff] at hne
    refine ⟨fun i ↦ ?_, pairwise_addShare h.ascending,
      exists_mem_of_mem_addShare hne h.exists_mem, fun row i ↦ ?_⟩
    · rw [StateSet.mem_sdiff, hpart, h.mem_left, List.forall_mem_append,
        List.forall_mem_singleton]
      tauto
    · rw [exists_mem_addShare, h.claimed, claimedBy_append_singleton, ← hpart]

/-- There is one share for each row. -/
theorem eq_of_row_eq (h : g.Divided cycle points left shares) {s t : Nat × StateSet sp}
    (hs : s ∈ shares) (ht : t ∈ shares) (hrow : s.1 = t.1) : s = t :=
  List.inj_on_of_nodup_map (List.pairwise_map.mpr (h.ascending.imp Nat.ne_of_lt)) hs ht hrow

/-- The share of a row holds what a point of the row was the first to hold. -/
theorem mem_share_iff (h : g.Divided cycle points left shares) {s : Nat × StateSet sp}
    (hs : s ∈ shares) (i : Nat) : i ∈ s.2 ↔ g.ClaimedBy cycle points s.1 i := by
  rw [← h.claimed]
  constructor
  · exact fun hi ↦ ⟨s, hs, rfl, hi⟩
  · rintro ⟨t, ht, hrow, hi⟩
    exact h.eq_of_row_eq ht hs hrow ▸ hi

/-- What is claimed for a row, its share holds. -/
theorem exists_share (h : g.Divided cycle points left shares) {row i : Nat}
    (hi : g.ClaimedBy cycle points row i) : ∃ states, (row, states) ∈ shares := by
  obtain ⟨⟨r, states⟩, hs, rfl, -⟩ := (h.claimed row i).mpr hi
  exact ⟨states, hs⟩

end Divided

/-- What every point preserves, the loop over the points preserves. -/
private theorem divided_foldl {cycle : StateSet sp}
    {next : StateSet sp × List (Nat × StateSet sp) → Point sp →
      StateSet sp × List (Nat × StateSet sp)}
    (hnext : ∀ seen acc p, g.Divided cycle seen acc.1 acc.2 →
      g.Divided cycle (seen ++ [p]) (next acc p).1 (next acc p).2)
    (points seen : List (Point sp)) (acc : StateSet sp × List (Nat × StateSet sp))
    (h : g.Divided cycle seen acc.1 acc.2) :
    g.Divided cycle (seen ++ points) (points.foldl next acc).1 (points.foldl next acc).2 := by
  induction points generalizing seen acc with
  | nil => exact (List.append_nil seen).symm ▸ h
  | cons p points ih =>
    rw [List.append_cons]
    exact ih _ _ (hnext seen acc p h)

/-- **The shares of a cycle** are what its points claim. -/
theorem divided_shares (g : Game sp) (cycle : StateSet sp) (points : List (Point sp)) :
    ∃ left, g.Divided cycle points left (g.shares (g.strip cycle) points) :=
  ⟨_, divided_foldl (fun _ _ p h ↦ h.step p) points [] (g.strip cycle, []) (.start g cycle)⟩

/-! ## Steps between shares -/

/-- A committed step leads from what one row claims of a cycle, if it claims anything, to what
another claims. -/
def LeadsTo (g : Game sp) (cycle inner : StateSet sp) (points : List (Point sp))
    (row row' : Nat) : Prop :=
  ∃ states states' : StateSet sp, (∀ i, i ∈ states ↔ g.ClaimedBy cycle points row i) ∧
    (∀ i, i ∈ states' ↔ g.ClaimedBy cycle points row' i) ∧ (∃ i, i ∈ states) ∧
    ∃ i ∈ g.strip (g.image (cycle ∩ states) inner), i ∈ states'

theorem mem_shareSteps {cycle inner : StateSet sp} {shares : List (Nat × StateSet sp)}
    {row row' : Nat} : (row, row') ∈ g.shareSteps cycle inner shares ↔
      row ≠ row' ∧ ∃ s ∈ shares, ∃ t ∈ shares, s.1 = row ∧ t.1 = row' ∧
        ∃ i ∈ g.strip (g.image (cycle ∩ s.2) inner), i ∈ t.2 := by
  simp only [shareSteps, List.mem_flatMap, List.mem_map, List.mem_filter, Bool.and_eq_true,
    bne_iff_ne, StateSet.meets_iff, Prod.mk.injEq]
  constructor
  · rintro ⟨s, hs, t, ⟨ht, hne, i, hi⟩, rfl, rfl⟩
    exact ⟨hne, s, hs, t, ht, rfl, rfl, i, hi⟩
  · rintro ⟨hne, s, hs, t, ht, rfl, rfl, i, hi⟩
    exact ⟨s, hs, t, ⟨ht, hne, i, hi⟩, rfl, rfl⟩

/-- The steps between shares are those between what their rows claim. -/
theorem Divided.mem_shareSteps_iff {cycle inner left : StateSet sp} {points : List (Point sp)}
    {shares : List (Nat × StateSet sp)} (h : g.Divided cycle points left shares) {row row' : Nat} :
    (row, row') ∈ g.shareSteps cycle inner shares ↔
      row ≠ row' ∧ g.LeadsTo cycle inner points row row' := by
  rw [mem_shareSteps]
  refine and_congr_right fun _ ↦ ?_
  constructor
  · rintro ⟨s, hs, t, ht, rfl, rfl, hmeets⟩
    exact ⟨s.2, t.2, h.mem_share_iff hs, h.mem_share_iff ht, h.exists_mem s hs, hmeets⟩
  · rintro ⟨states, states', hstates, hstates', ⟨i, hi⟩, j, hj, hj'⟩
    obtain ⟨s, hs⟩ := h.exists_share ((hstates i).mp hi)
    obtain ⟨t, ht⟩ := h.exists_share ((hstates' j).mp hj')
    obtain rfl : states = s := StateSet.ext_mem fun k ↦ by rw [hstates, h.mem_share_iff hs]
    obtain rfl : states' = t := StateSet.ext_mem fun k ↦ by rw [hstates', h.mem_share_iff ht]
    exact ⟨_, hs, _, ht, rfl, rfl, j, hj, hj'⟩

/-- The steps are listed in lexicographic order. -/
theorem pairwise_shareSteps {cycle inner : StateSet sp} {shares : List (Nat × StateSet sp)}
    (h : shares.Pairwise fun a b ↦ a.1 < b.1) :
    (g.shareSteps cycle inner shares).Pairwise fun e f ↦ e.1 < f.1 ∨ e.1 = f.1 ∧ e.2 < f.2 := by
  refine List.pairwise_flatMap.mpr ⟨fun s _ ↦ ?_, h.imp fun {s t} hst e he f hf ↦ ?_⟩
  · exact List.pairwise_map.mpr ((h.filter _).imp fun hlt ↦ Or.inr ⟨rfl, hlt⟩)
  · obtain ⟨-, -, rfl⟩ := List.mem_map.mp he
    obtain ⟨-, -, rfl⟩ := List.mem_map.mp hf
    exact Or.inl hst

/-! ## The assumption graph -/

/-- The points of some paths in the order in which they claim states: those of all cycles before
those of all approaches. -/
def claimants (paths : List (Path sp)) : List (Point sp) :=
  paths.flatMap (·.cycle) ++ paths.flatMap (·.approach)

theorem mem_claimants {paths : List (Path sp)} {p : Point sp} :
    p ∈ claimants paths ↔ ∃ path ∈ paths, p ∈ path.points := by
  simp only [claimants, List.mem_append, List.mem_flatMap]
  constructor
  · rintro (⟨path, hpath, hp⟩ | ⟨path, hpath, hp⟩)
    · exact ⟨path, hpath, List.mem_of_mem_drop hp⟩
    · exact ⟨path, hpath, List.mem_of_mem_take hp⟩
  · rintro ⟨path, hpath, hp⟩
    rw [← List.take_append_drop path.start path.points] at hp
    exact (List.mem_append.mp hp).symm.imp (fun hp ↦ ⟨path, hpath, hp⟩) fun hp ↦ ⟨path, hpath, hp⟩

/-- The groups of `a` divide the states of a cycle among the rows of its points, and its edges are
the committed steps between them. -/
structure DividedBy (g : Game sp) (cycle inner : StateSet sp) (paths : List (Path sp))
    (a : AssumptionGraph sp) : Prop where
  ascending : a.groups.Pairwise fun G H ↦ G.row < H.row
  exists_mem : ∀ G ∈ a.groups, ∃ i, i ∈ G.states
  disjoint : ∀ G ∈ a.groups, ∀ H ∈ a.groups, ∀ i, i ∈ G.states → i ∈ H.states → G = H
  cover : ∀ i, (∃ G ∈ a.groups, i ∈ G.states) ↔
    i ∈ g.strip cycle ∧ ∃ path ∈ paths, ∃ p ∈ path.points, i ∈ g.strip p.states
  claimed : ∀ G ∈ a.groups, ∀ i, i ∈ G.states ↔ g.ClaimedBy cycle (claimants paths) G.row i
  assumption_eq : ∀ G ∈ a.groups, g.assumptions[G.row]? = some G.assumption
  mem_edges : ∀ e, e ∈ a.edges ↔ ∃ G ∈ a.groups, ∃ H ∈ a.groups, e = (G.row, H.row) ∧
    G.row ≠ H.row ∧ ∃ i ∈ g.strip (g.image (cycle ∩ G.states) inner), i ∈ H.states
  edges_ascending : a.edges.Pairwise fun e f ↦ e.1 < f.1 ∨ e.1 = f.1 ∧ e.2 < f.2
  consecutive : ∀ e ∈ a.edges, e.2 = (e.1 + 1) % g.numRows

section AssumptionGraph

variable {rank : Nat} {cycle inner : StateSet sp} {paths : List (Path sp)}

theorem assumptionGraph_eq_ok {a : AssumptionGraph sp}
    (h : g.assumptionGraph rank cycle inner paths = .ok a) :
    (∀ e ∈ g.shareSteps cycle inner (g.shares (g.strip cycle) (claimants paths)),
        e.2 = (e.1 + 1) % g.numRows) ∧
      a = ⟨(g.shares (g.strip cycle) (claimants paths)).map fun (row, states) ↦
        ⟨row, g.assumptions.getD row ⟨"", ""⟩, states⟩,
        g.shareSteps cycle inner (g.shares (g.strip cycle) (claimants paths))⟩ := by
  unfold assumptionGraph at h
  dsimp only at h
  split at h
  · cases h
  · rename_i hfind
    refine ⟨fun e he ↦ ?_, (Except.ok.inj h).symm⟩
    have hnext := List.find?_eq_none.mp hfind e he
    rwa [bne_iff_ne, not_not] at hnext

/-- The groups hold what the points hold of the cycle. -/
theorem cover_of_assumptionGraph {a : AssumptionGraph sp}
    (h : g.assumptionGraph rank cycle inner paths = .ok a) {i : Nat} :
    (∃ G ∈ a.groups, i ∈ G.states) ↔
      i ∈ g.strip cycle ∧ ∃ path ∈ paths, ∃ p ∈ path.points, i ∈ g.strip p.states := by
  obtain ⟨-, rfl⟩ := assumptionGraph_eq_ok h
  obtain ⟨left, hdivided⟩ := divided_shares g cycle (claimants paths)
  have hpoint : (∃ p ∈ claimants paths, i ∈ g.strip p.states) ↔
      ∃ path ∈ paths, ∃ p ∈ path.points, i ∈ g.strip p.states := by
    simp only [mem_claimants]
    exact ⟨fun ⟨p, ⟨path, hpath, hp⟩, hi⟩ ↦ ⟨path, hpath, p, hp, hi⟩,
      fun ⟨path, hpath, p, hp, hi⟩ ↦ ⟨p, ⟨path, hpath, hp⟩, hi⟩⟩
  rw [← hpoint, ← exists_claimedBy_iff]
  simp only [← hdivided.claimed, List.mem_map, exists_exists_and_eq_and]
  exact ⟨fun ⟨s, hs, hi⟩ ↦ ⟨s.1, s, hs, rfl, hi⟩, fun ⟨_, s, hs, _, hi⟩ ↦ ⟨s, hs, hi⟩⟩

/-- **What an assumption graph promises**, if the rows of the points are rows of the game. -/
theorem dividedBy_of_assumptionGraph
    (hrows : ∀ path ∈ paths, ∀ p ∈ path.points, p.row < g.numRows) {a : AssumptionGraph sp}
    (h : g.assumptionGraph rank cycle inner paths = .ok a) :
    g.DividedBy cycle inner paths a := by
  have hcover := fun i ↦ cover_of_assumptionGraph h (i := i)
  obtain ⟨hnext, rfl⟩ := assumptionGraph_eq_ok h
  obtain ⟨left, hdivided⟩ := divided_shares g cycle (claimants paths)
  generalize g.shares (g.strip cycle) (claimants paths) = shares at hnext hdivided hcover
  exact {
    ascending := List.pairwise_map.mpr hdivided.ascending
    exists_mem := List.forall_mem_map.mpr hdivided.exists_mem
    disjoint := List.forall_mem_map.mpr fun s hs ↦ List.forall_mem_map.mpr fun t ht i his hit ↦ by
      have hrow := ((hdivided.mem_share_iff hs i).mp his).row_eq
        ((hdivided.mem_share_iff ht i).mp hit)
      rw [hdivided.eq_of_row_eq hs ht hrow]
    cover := hcover
    claimed := List.forall_mem_map.mpr fun s hs ↦ hdivided.mem_share_iff hs
    assumption_eq := List.forall_mem_map.mpr fun s hs ↦ by
      obtain ⟨i, hi⟩ := hdivided.exists_mem s hs
      obtain ⟨-, before, p, after, hpoints, hrow, -⟩ := (hdivided.mem_share_iff hs i).mp hi
      obtain ⟨path, hpath, hp⟩ := mem_claimants.mp
        (hpoints ▸ List.mem_append_right before List.mem_cons_self)
      have hlt : s.1 < g.assumptions.length := hrow ▸ hrows path hpath p hp
      rw [List.getElem?_eq_getElem hlt]
      exact congrArg some (List.getD_eq_getElem _ _ hlt).symm
    mem_edges := fun (row, row') ↦ by
      simp only [mem_shareSteps, List.mem_map, exists_exists_and_eq_and, Prod.mk.injEq]
      constructor
      · rintro ⟨hne, s, hs, t, ht, rfl, rfl, hmeets⟩
        exact ⟨s, hs, t, ht, ⟨rfl, rfl⟩, hne, hmeets⟩
      · rintro ⟨s, hs, t, ht, ⟨rfl, rfl⟩, hne, hmeets⟩
        exact ⟨hne, s, hs, t, ht, rfl, rfl, hmeets⟩
    edges_ascending := pairwise_shareSteps hdivided.ascending
    consecutive := hnext }

/-- **When an assumption graph is refused**: some row leads to another that is not the next one. -/
theorem exists_assumptionGraph_eq_error_iff :
    (∃ v, g.assumptionGraph rank cycle inner paths = .error v) ↔
      ∃ row row', row ≠ row' ∧ g.LeadsTo cycle inner (claimants paths) row row' ∧
        row' ≠ (row + 1) % g.numRows := by
  obtain ⟨left, hdivided⟩ := divided_shares g cycle (claimants paths)
  have hsteps : (∃ v, g.assumptionGraph rank cycle inner paths = .error v) ↔
      ∃ e ∈ g.shareSteps cycle inner (g.shares (g.strip cycle) (claimants paths)),
        e.2 ≠ (e.1 + 1) % g.numRows := by
    constructor
    · rintro ⟨v, h⟩
      unfold assumptionGraph at h
      dsimp only at h
      split at h
      · rename_i hfind
        have hnext := List.find?_some hfind
        rw [bne_iff_ne] at hnext
        exact ⟨_, List.mem_of_find?_eq_some hfind, hnext⟩
      · cases h
    · rintro ⟨e, he, hnext⟩
      cases h : g.assumptionGraph rank cycle inner paths with
      | error v => exact ⟨v, rfl⟩
      | ok a => exact absurd ((assumptionGraph_eq_ok h).1 e he) hnext
  rw [hsteps, Prod.exists]
  simp only [hdivided.mem_shareSteps_iff, and_assoc]

end AssumptionGraph

end Game

end JusticeViolation

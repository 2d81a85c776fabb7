import JusticeViolation.Proofs.Path.Rows
import JusticeViolation.Proofs.StateSet.Closure
import Mathlib.Algebra.Group.Action.Defs
import Mathlib.Algebra.Order.BigOperators.Group.Finset
import Mathlib.Data.Finset.Sigma
import Mathlib.Data.List.Chain

/-!
# Laps

Between two commitments a step is determined by the point that it leaves. So if a walk comes to a
point again, it goes round: it will come to all points since then once more. By the time of the
third arrival it has been round twice, and on the second round it compared every point of the round
with all that it had narrowed on the first. None was among them; and as nothing but these will be
narrowed from then on, none ever will be. The walk is in a *trap*, it goes on for ever.

A walk that is in no trap comes to every point twice at most between two commitments, which bounds
the number of its steps.
-/

namespace JusticeViolation

variable {sp : Space} {g : Game sp} {m : Maze sp}

/-! ## Rounds in a list -/

section Chains

variable {α : Type} {R : α → α → Prop} {a b : α} {l : List α}

/-- In a chain everything but the head has a predecessor. -/
private theorem exists_rel_of_isChain (h : (a :: (l ++ [b])).IsChain R) :
    ∀ y ∈ l ++ [b], ∃ z ∈ a :: l, R z y := by
  induction l generalizing a with
  | nil =>
    intro y hy
    obtain rfl := List.mem_singleton.mp hy
    exact ⟨a, List.mem_cons_self, (List.isChain_cons_cons.mp h).1⟩
  | cons c l ih =>
    obtain ⟨hac, hchain⟩ := List.isChain_cons_cons.mp h
    intro y hy
    rcases List.mem_cons.mp hy with rfl | hy
    · exact ⟨a, List.mem_cons_self, hac⟩
    · obtain ⟨z, hz, hzy⟩ := ih hchain y hy
      exact ⟨z, List.mem_cons_of_mem a hz, hzy⟩

/-- A list with two occurrences, cut at them. -/
private theorem exists_append_of_two_le_count [DecidableEq α] (h : 2 ≤ l.count a) :
    ∃ u v w, l = u ++ a :: (v ++ a :: w) := by
  obtain ⟨u, behind, rfl⟩ := List.append_of_mem (List.count_pos_iff.mp (Nat.lt_of_lt_of_le
    Nat.zero_lt_two h))
  by_cases hu : a ∈ u
  · obtain ⟨u, v, rfl⟩ := List.append_of_mem hu
    exact ⟨u, v, behind, by rw [List.append_assoc, List.cons_append]⟩
  · rw [List.count_append, List.count_eq_zero.mpr hu, List.count_cons_self] at h
    obtain ⟨v, w, rfl⟩ := List.append_of_mem (List.count_pos_iff.mp (by omega : 0 < behind.count a))
    exact ⟨u, v, w, rfl⟩

end Chains

/-! ## Traps -/

namespace Maze

/-- Points from which a walk does not get away: from each of them it steps to another without a new
commitment, none closes the walk, and what a step leaves of its point is there already. -/
structure Trap (g : Game sp) (m : Maze sp) (inner : StateSet sp) (points : List (Point sp))
    (inside : Point sp → Prop) : Prop where
  goes_on : ∀ p, inside p → ∃ s, m.step? g inner p = some s ∧ inside s.next ∧
    inner ∪ s.chosen = inner ∧ ({ p with states := s.movers } : Point sp) ∈ points
  not_mem : ∀ p, inside p → p ∉ points

/-- A step in a trap leaves it a trap. -/
theorem Trap.step {inner : StateSet sp} {points : List (Point sp)} {inside : Point sp → Prop}
    (h : m.Trap g inner points inside) {p : Point sp} (hp : p ∈ points) :
    m.Trap g inner (points ++ [p]) inside where
  goes_on := fun q hq ↦ by
    obtain ⟨s, hstep, hinside, hkept, hmem⟩ := h.goes_on q hq
    exact ⟨s, hstep, hinside, hkept, List.mem_append_left _ hmem⟩
  not_mem := fun q hq hmem ↦ by
    rcases List.mem_append.mp hmem with hmem | hmem
    · exact h.not_mem q hq hmem
    · exact h.not_mem q hq (List.mem_singleton.mp hmem ▸ hp)

end Maze

/-! ## Arrivals since the last commitment -/

namespace Walk

/-- A walk has arrived at `last`, and before that, since its last commitment, at `rest`, the latest
first: these follow one another, none is an earlier one narrowed, and none is among `base`, the
points at the time of that commitment. What was added to these since are the arrivals, narrowed. -/
structure Lap (g : Game sp) (m : Maze sp) (inner : StateSet sp) (base points : List (Point sp))
    (last : Point sp) (rest : List (Point sp)) : Prop where
  chain : (last :: rest).IsChain fun p q ↦ ∃ s, m.step? g inner q = some s ∧ s.next = p ∧
    inner ∪ s.chosen = inner
  apart : (last :: rest).Pairwise fun p q ↦ ∀ s, m.step? g inner q = some s →
    ({ q with states := s.movers } : Point sp) ≠ p
  fresh : ∀ p ∈ last :: rest, p ∉ base
  mem_points : ∀ p, p ∈ points ↔ p ∈ base ∨ ∃ q ∈ rest, ∃ s, m.step? g inner q = some s ∧
    ({ q with states := s.movers } : Point sp) = p

variable {inner : StateSet sp} {base points rest : List (Point sp)} {last : Point sp} {s : Step sp}

/-- Every commitment begins a new lap. -/
theorem Lap.single (h : last ∉ points) : Lap g m inner points points last [] where
  chain := List.isChain_singleton last
  apart := List.pairwise_singleton _ last
  fresh := fun _ hp ↦ List.mem_singleton.mp hp ▸ h
  mem_points := fun _ ↦ ⟨Or.inl, fun hp ↦ hp.elim (fun hp ↦ hp)
    fun ⟨_, hq, _⟩ ↦ absurd hq List.not_mem_nil⟩

namespace Lap

variable (h : Lap g m inner base points last rest) (hstep : m.step? g inner last = some s)
  (hopen : s.next ∉ points ++ [({ last with states := s.movers } : Point sp)])
  (hkept : inner ∪ s.chosen = inner)

include h hstep hopen hkept

/-- A step that commits nothing new and does not close the walk. -/
theorem step :
    Lap g m inner base (points ++ [{ last with states := s.movers }]) s.next (last :: rest) := by
  have hmem : ∀ p, p ∈ points ++ [({ last with states := s.movers } : Point sp)] ↔
      p ∈ base ∨ ∃ q ∈ last :: rest, ∃ s, m.step? g inner q = some s ∧
        ({ q with states := s.movers } : Point sp) = p := by
    intro p
    rw [List.mem_append, List.mem_singleton, h.mem_points, List.exists_mem_cons_iff, or_assoc,
      or_comm (a := ∃ q ∈ rest, _), hstep]
    simp only [Option.some.injEq, exists_eq_left', eq_comm (b := p)]
  exact {
    chain := List.isChain_cons_cons.mpr ⟨⟨s, hstep, rfl, hkept⟩, h.chain⟩
    apart := List.pairwise_cons.mpr ⟨fun q hq t ht heq ↦
      hopen ((hmem _).mpr (Or.inr ⟨q, hq, t, ht, heq⟩)), h.apart⟩
    fresh := List.forall_mem_cons.mpr ⟨fun hbase ↦ hopen ((hmem _).mpr (Or.inl hbase)), h.fresh⟩
    mem_points := hmem }

/-- **The third arrival.** A walk that comes to a point for the third time since its last commitment
is in a trap: the points of the round. -/
theorem exists_trap (hcount : 2 ≤ (last :: rest).count s.next) : ∃ inside, inside s.next ∧
    m.Trap g inner (points ++ [{ last with states := s.movers }]) inside := by
  have hnew := h.step hstep hopen hkept
  generalize points ++ [({ last with states := s.movers } : Point sp)] = points' at hnew ⊢
  generalize s.next = x at hnew hcount ⊢
  generalize last :: rest = arrivals at hnew hcount
  obtain ⟨u, v, w, rfl⟩ := exists_append_of_two_le_count hcount
  -- `x :: u` is the second round, `x :: v` the first one
  have hchain := hnew.chain
  have hsecond := hchain.prefix (show x :: (u ++ [x]) <+: _ from ⟨v ++ x :: w, by simp⟩)
  have hfirst := hchain.infix (show x :: (v ++ [x]) <:+: _ from ⟨x :: u, w, by simp⟩)
  have hnext : ∀ l : List (Point sp), (x :: (l ++ [x])).IsChain (fun p q ↦
      ∃ s, m.step? g inner q = some s ∧ s.next = p ∧ inner ∪ s.chosen = inner) →
      ∀ p ∈ x :: l, ∃ s, m.step? g inner p = some s ∧ s.next ∈ x :: l ∧
        inner ∪ s.chosen = inner := by
    intro l hl p hp
    have hp' : p ∈ l ++ [x] := by
      rcases List.mem_cons.mp hp with rfl | hp
      · exact List.mem_append_right _ (List.mem_singleton_self _)
      · exact List.mem_append_left _ hp
    obtain ⟨_, hz, s, hs, rfl, hk⟩ := exists_rel_of_isChain hl p hp'
    exact ⟨s, hs, hz, hk⟩
  -- steps are determined, so the second round is like the first
  have hsame : ∀ p ∈ x :: u, p ∈ x :: v := by
    refine List.IsChain.backwards_concat_induction _ _ hsecond ?_ List.mem_cons_self
    rintro p q ⟨s, hs, rfl, -⟩ hq
    obtain ⟨t, ht, htv, -⟩ := hnext v hfirst q hq
    rw [hs, Option.some.injEq] at ht
    exact ht ▸ htv
  have hround : ∀ p ∈ x :: u, p ∈ u ++ x :: (v ++ x :: w) := fun p hp ↦ by
    rcases List.mem_cons.mp hp with rfl | hp
    · exact List.mem_append_right _ List.mem_cons_self
    · exact List.mem_append_left _ hp
  -- every arrival has been there by the end of the first round
  have hearly : ∀ p ∈ u ++ x :: (v ++ x :: w), p ∈ v ++ x :: w := by
    have hv : ∀ p ∈ x :: v, p ∈ v ++ x :: w := fun p hp ↦ by
      rcases List.mem_cons.mp hp with rfl | hp
      · exact List.mem_append_right _ List.mem_cons_self
      · exact List.mem_append_left _ hp
    intro p hp
    rcases List.mem_append.mp hp with hp | hp
    · exact hv p (hsame p (List.mem_cons_of_mem x hp))
    · rcases List.mem_cons.mp hp with rfl | hp
      · exact hv p List.mem_cons_self
      · exact hp
  refine ⟨(· ∈ x :: u), List.mem_cons_self, fun p hp ↦ ?_, fun p hp hmem ↦ ?_⟩
  · obtain ⟨s, hs, hsu, hk⟩ := hnext u hsecond p hp
    exact ⟨s, hs, hsu, hk, (hnew.mem_points _).mpr (Or.inr ⟨p, hround p hp, s, hs, rfl⟩)⟩
  · rcases (hnew.mem_points p).mp hmem with hbase | ⟨q, hq, s, hs, heq⟩
    · exact hnew.fresh p (List.mem_cons.mpr ((List.mem_cons.mp hp).imp_right
        (List.mem_append_left _))) hbase
    · have hapart := hnew.apart
      rw [← List.cons_append, List.pairwise_append] at hapart
      exact hapart.2.2 p hp q (List.mem_cons_of_mem x (hearly q hq)) s hs heq

end Lap

end Walk

/-! ## The number of steps -/

namespace Maze

/-- The number of points of a maze. -/
def numPoints (m : Maze sp) : Nat := m.cells.flatten.length * 2 ^ sp.size

private theorem sum_length_row (cells : List (List (StateSet sp))) :
    ∑ row ∈ Finset.range cells.length, (cells.getD row []).length
      = cells.flatten.length := by
  induction cells with
  | nil => rfl
  | cons first cells ih =>
    rw [List.length_cons, Finset.sum_range_succ', List.flatten_cons, List.length_append, ← ih,
      Nat.add_comm]
    rfl

/-- There are only so many points, so a list in which none occurs too often is not long. -/
theorem length_le_of_count_le {ps : List (Point sp)} (hcell : ∀ p ∈ ps, m.HasCell p) {n : Nat}
    (hcount : ∀ p, ps.count p ≤ n) : ps.length ≤ n * m.numPoints := by
  have hcard : ps.toFinset.card ≤ m.numPoints := by
    have hsigma : (((Finset.range m.cells.length).sigma fun row ↦
        Finset.range (m.cells.getD row []).length) ×ˢ Finset.range (2 ^ sp.size)).card
          = m.numPoints := by
      rw [Finset.card_product, Finset.card_sigma, Finset.card_range]
      simp only [Finset.card_range, sum_length_row]
      rfl
    rw [← hsigma]
    refine Finset.card_le_card_of_injOn
      (fun p ↦ ((⟨p.row, p.column⟩ : Σ _ : Nat, Nat), p.states.mask)) (fun p hp ↦ ?_)
      fun p _ q _ hpq ↦ ?_
    · obtain ⟨hrow, hcolumn⟩ := hcell p (List.mem_toFinset.mp hp)
      exact Finset.mem_product.mpr ⟨Finset.mem_sigma.mpr
        ⟨Finset.mem_range.mpr hrow, Finset.mem_range.mpr hcolumn⟩,
        Finset.mem_range.mpr p.states.mask_lt⟩
    · obtain ⟨row, column, mask, hmask⟩ := p
      obtain ⟨row', column', mask', hmask'⟩ := q
      simp only [Prod.mk.injEq, Sigma.mk.injEq, heq_eq_eq] at hpq
      obtain ⟨⟨rfl, rfl⟩, rfl⟩ := hpq
      rfl
  calc ps.length
      = ∑ p ∈ ps.toFinset, ps.count p := (List.sum_toFinset_count_eq_length ps).symm
    _ ≤ ps.toFinset.card * n := by
        rw [← smul_eq_mul]
        exact Finset.sum_le_card_nsmul _ _ _ fun p _ ↦ hcount p
    _ ≤ n * m.numPoints := by
        rw [Nat.mul_comm]
        exact Nat.mul_le_mul_left n hcard

/-- More steps than a walk can take that has made `arrivals` arrivals since its last commitment:
there are valuations left to commit, and points left to arrive at for the first or the second
time. -/
def stepsLeft (m : Maze sp) (inner : StateSet sp) (arrivals : Nat) : Nat :=
  (sp.size - inner.members.card) * (2 * m.numPoints + 2) + (2 * m.numPoints + 1 - arrivals)

variable {inner chosen : StateSet sp}

theorem stepsLeft_lt_fuel (m : Maze sp) (inner : StateSet sp) : m.stepsLeft inner 1 < m.fuel := by
  have hfuel : m.fuel = (sp.size + 1) * (2 * m.numPoints + 2) := by
    rw [fuel, numPoints, Nat.mul_assoc, Nat.pow_eq]
  have hmul := Nat.mul_le_mul_right (2 * m.numPoints + 2)
    (Nat.sub_le sp.size inner.members.card)
  rw [hfuel, stepsLeft, Nat.succ_mul sp.size]
  omega

/-- Whenever something new is committed, there is less left to commit. -/
theorem stepsLeft_grown (h : inner ∪ chosen ≠ inner) (arrivals : Nat) :
    m.stepsLeft (inner ∪ chosen) 1 < m.stepsLeft inner arrivals := by
  have hsub : ∀ v ∈ inner, v ∈ inner ∪ chosen := fun v hv ↦ StateSet.mem_union.mpr (Or.inl hv)
  obtain ⟨v, hv, hno⟩ : ∃ v ∈ inner ∪ chosen, v ∉ inner := by
    by_contra hall
    refine h (StateSet.ext_mem fun v ↦ ⟨fun hv ↦ ?_, hsub v⟩)
    by_contra hno
    exact hall ⟨v, hv, hno⟩
  have hcard := StateSet.card_members_lt hsub hv hno
  have hsize := StateSet.card_members_le (inner ∪ chosen)
  have hless : sp.size - (inner ∪ chosen).members.card < sp.size - inner.members.card := by omega
  have hmul := Nat.mul_le_mul_right (2 * m.numPoints + 2) hless
  rw [Nat.succ_mul] at hmul
  rw [stepsLeft, stepsLeft]
  omega

/-- Every arrival leaves fewer to come. -/
theorem stepsLeft_arrived (inner : StateSet sp) {ps : List (Point sp)} {p : Point sp}
    (hcell : ∀ q ∈ p :: ps, m.HasCell q) (hcount : ∀ q, (p :: ps).count q ≤ 2) :
    m.stepsLeft inner (p :: ps).length < m.stepsLeft inner ps.length := by
  have hlength := length_le_of_count_le hcell hcount
  rw [List.length_cons] at hlength ⊢
  rw [stepsLeft, stepsLeft]
  omega

end Maze

end JusticeViolation

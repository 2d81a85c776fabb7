import JusticeViolation.Proofs.Graph.Routes
import JusticeViolation.Proofs.Graph.Termination

/-!
# What is counted

The search before a count reaches exactly the nodes that edges lead to. The count then follows every
edge between these once, from a node whose own count is final, and so it has at any time counted the
routes whose last step starts at a node that has been dealt with. It comes to every node that has
no circle before it: among those left there would be a first one, and no edge to it would be left to
follow. It never comes to the others, as each of them has a parent with a circle before it too. So
the number of paths from one node to another is 0, 1 or 2 if there is no route, one route or more
than one.
-/

namespace JusticeViolation

/-- What holds at the beginning and is kept by every round, holds at the end, where there is no
further round. -/
theorem Loops.invariant {σ : Type} {next : σ → Option σ} {ends : σ → Prop} {P : σ → Prop} {s t : σ}
    (h : Loops next ends s t) (hs : P s) (hround : ∀ s t, P s → next s = some t → P t) :
    P t ∧ next t = none := by
  induction h with
  | stop hnone => exact ⟨hs, hnone⟩
  | round _ hnext _ ih => exact ih (hround _ _ hs hnext)

/-- The number `n` counts the lists with a property, where 2 stands for any larger number. -/
structure Counts (P : List Nat → Prop) (n : Nat) : Prop where
  pos_iff : 0 < n ↔ ∃ l, P l
  le_one_iff : n ≤ 1 ↔ ∀ l l', P l → P l' → l = l'
  le_two : n ≤ 2

namespace Counts

variable {P Q : List Nat → Prop} {m n : Nat}

theorem congr (h : Counts P n) (hPQ : ∀ l, P l ↔ Q l) : Counts Q n where
  pos_iff := h.pos_iff.trans (exists_congr hPQ)
  le_one_iff := h.le_one_iff.trans
    (forall₂_congr fun l l' ↦ imp_congr (hPQ l) (imp_congr_left (hPQ l')))
  le_two := h.le_two

theorem zero (h : ∀ l, ¬P l) : Counts P 0 where
  pos_iff := iff_of_false (Nat.lt_irrefl 0) fun ⟨l, hl⟩ ↦ h l hl
  le_one_iff := iff_of_true (Nat.zero_le 1) fun l _ hl ↦ absurd hl (h l)
  le_two := Nat.zero_le 2

theorem one {l : List Nat} (h : ∀ l', P l' ↔ l' = l) : Counts P 1 where
  pos_iff := iff_of_true Nat.one_pos ⟨l, (h l).mpr rfl⟩
  le_one_iff := iff_of_true (Nat.le_refl 1) fun l₁ l₂ h₁ h₂ ↦
    ((h l₁).mp h₁).trans ((h l₂).mp h₂).symm
  le_two := Nat.le_succ 1

/-- A first member in front of all lists does not change their number. -/
theorem cons (h : Counts P n) (a : Nat) : Counts (fun l ↦ ∃ l', l = a :: l' ∧ P l') n where
  pos_iff := h.pos_iff.trans
    ⟨fun ⟨l, hl⟩ ↦ ⟨a :: l, l, rfl, hl⟩, fun ⟨_, l, _, hl⟩ ↦ ⟨l, hl⟩⟩
  le_one_iff := by
    rw [h.le_one_iff]
    constructor
    · rintro hone _ _ ⟨l, rfl, hl⟩ ⟨l', rfl, hl'⟩
      rw [hone l l' hl hl']
    · exact fun hone l l' hl hl' ↦
        (List.cons.inj (hone _ _ ⟨l, rfl, hl⟩ ⟨l', rfl, hl'⟩)).2
  le_two := h.le_two

/-- Lists of two kinds are counted by the sum. -/
theorem add (hP : Counts P m) (hQ : Counts Q n) (hdisjoint : ∀ l, P l → ¬Q l) :
    Counts (fun l ↦ P l ∨ Q l) (min (m + n) 2) where
  pos_iff := by
    rw [exists_or, ← hP.pos_iff, ← hQ.pos_iff]
    omega
  le_one_iff := by
    constructor
    · intro hle l l' hl hl'
      have hcases : m = 0 ∧ n ≤ 1 ∨ m ≤ 1 ∧ n = 0 := by omega
      rcases hcases with ⟨hzero, hone⟩ | ⟨hone, hzero⟩
      · have hnone : ∀ l, ¬P l := fun l hl ↦ by
          have hpos := hP.pos_iff.mpr ⟨l, hl⟩
          omega
        exact hQ.le_one_iff.mp hone l l' (hl.resolve_left (hnone l)) (hl'.resolve_left (hnone l'))
      · have hnone : ∀ l, ¬Q l := fun l hl ↦ by
          have hpos := hQ.pos_iff.mpr ⟨l, hl⟩
          omega
        exact hP.le_one_iff.mp hone l l' (hl.resolve_right (hnone l))
          (hl'.resolve_right (hnone l'))
    · intro hone
      have hm := hP.le_one_iff.mpr fun l l' hl hl' ↦ hone l l' (Or.inl hl) (Or.inl hl')
      have hn := hQ.le_one_iff.mpr fun l l' hl hl' ↦ hone l l' (Or.inr hl) (Or.inr hl')
      have hboth : ¬(0 < m ∧ 0 < n) := fun ⟨hmpos, hnpos⟩ ↦ by
        obtain ⟨l, hl⟩ := hP.pos_iff.mp hmpos
        obtain ⟨l', hl'⟩ := hQ.pos_iff.mp hnpos
        exact hdisjoint l hl (hone l l' (Or.inl hl) (Or.inr hl') ▸ hl')
      omega
  le_two := Nat.min_le_right _ _

end Counts

namespace Graph

variable {sp : Space} {graph : Graph sp}

/-! ## What is reached -/

theorem nextUnseen?_eq_none {seen queue : List Nat} (h : nextUnseen? seen queue = none) :
    ∀ id ∈ queue, id ∈ seen := by
  induction queue with
  | nil => exact fun _ hid ↦ absurd hid List.not_mem_nil
  | cons n queue ih =>
    rw [nextUnseen?] at h
    split at h
    · rename_i hn
      exact List.forall_mem_cons.mpr ⟨hn, ih h⟩
    · cases h

/-- What a search from `a` promises of its queue and of what it has reached. -/
structure Searched (graph : Graph sp) (a : Nat) (s : List Nat × List Nat) : Prop where
  sound : ∀ id, id ∈ s.1 ∨ id ∈ s.2 → graph.Reaches a id
  start : a ∈ s.1 ∨ a ∈ s.2
  closed : ∀ id ∈ s.2, ∀ child ∈ graph.children id, child ∈ s.1 ∨ child ∈ s.2

/-- **One round of a search** keeps its promises. -/
theorem Searched.next {a : Nat} {s t : List Nat × List Nat} (h : graph.Searched a s)
    (hs : graph.reachNext s = some t) : graph.Searched a t := by
  obtain ⟨queue, reached⟩ := s
  obtain ⟨hsound, hstart, hclosed⟩ := h
  obtain ⟨⟨id, queue'⟩, hnext, rfl⟩ := Option.map_eq_some_iff.mp hs
  obtain ⟨-, front, hfront, rfl⟩ := Merging.nextUnseen?_eq_some hnext
  -- what waited still waits, or it has been reached
  have hkept : ∀ k, k ∈ front ++ id :: queue' ∨ k ∈ reached →
      k ∈ queue' ++ graph.children id ∨ k ∈ insertAscending id reached := fun k hk ↦ by
    rw [mem_insertAscending, List.mem_append]
    rw [List.mem_append, List.mem_cons] at hk
    rcases hk with (hk | hk | hk) | hk
    · exact Or.inr (Or.inr (hfront k hk))
    · exact Or.inr (Or.inl hk)
    · exact Or.inl (Or.inl hk)
    · exact Or.inr (Or.inr hk)
  have hid : graph.Reaches a id :=
    hsound id (Or.inl (List.mem_append_right _ List.mem_cons_self))
  refine ⟨fun k hk ↦ ?_, hkept a hstart, fun k hk child hchild ↦ ?_⟩
  · rw [mem_insertAscending, List.mem_append] at hk
    rcases hk with (hk | hk) | rfl | hk
    · exact hsound k (Or.inl (List.mem_append_right _ (List.mem_cons_of_mem _ hk)))
    · exact hid.tail (mem_children.mp hk)
    · exact hid
    · exact hsound k (Or.inr hk)
  · rcases mem_insertAscending.mp hk with rfl | hk
    · exact Or.inl (List.mem_append_right _ hchild)
    · exact hkept child (hclosed k hk child hchild)

/-- **The search reaches exactly what edges lead to.** -/
theorem mem_reachedFrom {a b : Nat} : b ∈ graph.reachedFrom a ↔ graph.Reaches a b := by
  obtain ⟨rest, hloops⟩ := exists_loops_reachedFrom graph a
  have hbegin : graph.Searched a ([a], []) := {
    sound := fun id hid ↦ by
      rw [List.mem_singleton, or_iff_left List.not_mem_nil] at hid
      exact hid ▸ .refl
    start := Or.inl List.mem_cons_self
    closed := fun _ hid ↦ absurd hid List.not_mem_nil }
  obtain ⟨⟨hsound, hstart, hclosed⟩, hnext⟩ :=
    hloops.invariant (P := graph.Searched a) hbegin fun _ _ h hs ↦ h.next hs
  have hreached : ∀ id, id ∈ rest ∨ id ∈ graph.reachedFrom a → id ∈ graph.reachedFrom a :=
    fun id hid ↦ hid.elim (nextUnseen?_eq_none (Option.map_eq_none_iff.mp hnext) id) fun hid ↦ hid
  refine ⟨fun hb ↦ hsound b (Or.inr hb), fun hab ↦ ?_⟩
  induction hab with
  | refl => exact hreached a hstart
  | @tail b c _ hbc ih => exact hreached c (hclosed b ih c (mem_children.mpr hbc))

/-! ## Routes from what is done -/

/-- A route whose last step starts at a node that has been dealt with. -/
def RouteOver (graph : Graph sp) (source : Nat) (done : List Nat) (target : Nat) (l : List Nat) :
    Prop :=
  target = source ∧ l = [] ∨
    ∃ b l', l = b :: l' ∧ b ∈ done ∧ graph.Route source b l' ∧ graph.Joins b target

/-- When one more node is done, the routes that arrive from it are added. -/
theorem routeOver_cons {source id target : Nat} {done l : List Nat} :
    graph.RouteOver source (id :: done) target l ↔ graph.RouteOver source done target l ∨
      graph.Joins id target ∧ ∃ l', l = id :: l' ∧ graph.Route source id l' := by
  unfold RouteOver
  constructor
  · rintro (hhere | ⟨b, l', rfl, hb, hl', hjoins⟩)
    · exact Or.inl (Or.inl hhere)
    · rcases List.mem_cons.mp hb with rfl | hb
      · exact Or.inr ⟨hjoins, l', rfl, hl'⟩
      · exact Or.inl (Or.inr ⟨b, l', rfl, hb, hl', hjoins⟩)
  · rintro ((hhere | ⟨b, l', rfl, hb, hl', hjoins⟩) | ⟨hjoins, l', rfl, hl'⟩)
    · exact Or.inl hhere
    · exact Or.inr ⟨b, l', rfl, List.mem_cons_of_mem _ hb, hl', hjoins⟩
    · exact Or.inr ⟨id, l', rfl, List.mem_cons_self, hl', hjoins⟩

/-- No edge to a node is left to follow when every parent that is reached has been dealt with. -/
theorem pendingEdges_eq_zero_iff {reached done : List Nat} {target : Nat} :
    graph.pendingEdges reached done target = 0 ↔
      ∀ p ∈ reached, graph.Joins p target → p ∈ done := by
  rw [pendingEdges, List.countP_eq_zero]
  constructor
  · rintro h _ hp ⟨e, he, rfl, rfl⟩
    simpa [hp] using h e he
  · intro h e he
    by_contra hpending
    simp only [Bool.and_eq_true, beq_iff_eq, List.contains_iff_mem, Bool.not_eq_true',
      ← Bool.not_eq_true] at hpending
    obtain ⟨⟨htarget, hreached⟩, hnew⟩ := hpending
    exact hnew (h e.source hreached ⟨e, he, rfl, htarget⟩)

/-- Where no edge is left to follow, all routes have been counted. -/
theorem routeOver_iff {source target : Nat} {done : List Nat}
    (h : graph.pendingEdges (graph.reachedFrom source) done target = 0) (l : List Nat) :
    graph.RouteOver source done target l ↔ graph.Route source target l := by
  constructor
  · rintro (⟨rfl, rfl⟩ | ⟨b, l', rfl, -, hl', hjoins⟩)
    · exact .here
    · exact hl'.step hjoins
  · intro hl
    cases hl with
    | here => exact Or.inl ⟨rfl, rfl⟩
    | @step b _ l' hl' hjoins =>
      have hdone := pendingEdges_eq_zero_iff.mp h b (mem_reachedFrom.mpr hl'.reaches) hjoins
      exact Or.inr ⟨b, l', rfl, hdone, hl', hjoins⟩

/-! ## The count -/

/-- A count under way, with what it has counted so far. -/
structure Tallied (graph : Graph sp) (source : Nat) (done ready : List Nat)
    (counts : List PathCount) :
    Prop extends Counting graph (graph.reachedFrom source) done ready counts where
  /-- A node comes up as soon as no edge to it is left to follow. -/
  comes_up : ∀ id ∈ graph.reachedFrom source,
    graph.pendingEdges (graph.reachedFrom source) done id = 0 → id ∈ done ++ ready
  paths : ∀ c ∈ counts, Counts (graph.RouteOver source done c.id) c.paths
  /-- What lies on a circle or behind one does not come up. -/
  straight : ∀ id ∈ done, ¬graph.CircleBetween source id

namespace Tallied

variable {source : Nat} {done ready : List Nat} {counts : List PathCount} {id : Nat}

theorem start (graph : Graph sp) (source : Nat) :
    graph.Tallied source [] (graph.startReady source) (graph.startCounts source) where
  toCounting := counting_start graph source
  comes_up := fun id hid hzero ↦ by
    obtain ⟨c, hc, rfl⟩ := List.mem_map.mp ((counting_start graph source).ids ▸ hid)
    refine List.mem_map_of_mem (List.mem_filter.mpr ⟨hc, beq_iff_eq.mpr ?_⟩)
    rw [(counting_start graph source).pending c hc, hzero]
  paths := fun c hc ↦ by
    obtain ⟨id, -, rfl⟩ := List.mem_map.mp hc
    have hnone : ∀ l, graph.RouteOver source [] id l ↔ id = source ∧ l = [] := fun l ↦
      or_iff_left fun ⟨_, _, _, hb, _⟩ ↦ List.not_mem_nil hb
    dsimp only
    split
    · rename_i hid
      exact .one fun l ↦ (hnone l).trans (and_iff_right hid)
    · rename_i hid
      exact .zero fun l hl ↦ hid ((hnone l).mp hl).1
  straight := fun _ hid ↦ absurd hid List.not_mem_nil

/-- There is an entry for what is reached. -/
theorem exists_find? (h : graph.Tallied source done ready counts)
    (hid : id ∈ graph.reachedFrom source) :
    ∃ c ∈ counts, counts.find? (·.id == id) = some c ∧ c.id = id := by
  cases hfind : counts.find? (·.id == id) with
  | none =>
    obtain ⟨c, hc, rfl⟩ := List.mem_map.mp (h.ids ▸ hid)
    exact absurd (beq_self_eq_true c.id) (List.find?_eq_none.mp hfind c hc)
  | some c =>
    exact ⟨c, List.mem_of_find?_eq_some hfind, rfl,
      beq_iff_eq.mp (List.find?_some (p := fun c : PathCount ↦ c.id == id) hfind)⟩

/-- The number of paths to a node that is counted. -/
theorem paths_getD (h : graph.Tallied source done ready counts)
    (hid : id ∈ graph.reachedFrom source)
    (hzero : graph.pendingEdges (graph.reachedFrom source) done id = 0) :
    Counts (graph.Route source id) (((counts.find? (·.id == id)).map (·.paths)).getD 0) := by
  obtain ⟨c, hc, hfind, rfl⟩ := h.exists_find? hid
  rw [hfind]
  exact (h.paths c hc).congr (routeOver_iff hzero)

/-- **One round of the count** counts the routes that arrive from one more node. -/
theorem step (hs : graph.Sorted) (h : graph.Tallied source done (id :: ready) counts) :
    let here := ((counts.find? (·.id == id)).map (·.paths)).getD 0
    let counts' := followEdges here (graph.children id) counts
    graph.Tallied source (id :: done) (ready ++ (graph.children id).filter fun child ↦
      counts'.any fun c ↦ c.id == child && c.pending == 0) counts' := by
  obtain ⟨hreached, hzero⟩ := h.settled id (List.mem_append_right _ List.mem_cons_self)
  have hhere := h.paths_getD hreached hzero
  have hnew : id ∉ done := fun hd ↦
    (List.nodup_cons.mp (List.nodup_middle.mp h.nodup)).1 (List.mem_append_left _ hd)
  have hcounting := h.toCounting.step hs (((counts.find? (·.id == id)).map (·.paths)).getD 0)
  refine ⟨hcounting, fun k hk hpending ↦ ?_, fun c hc ↦ ?_, List.forall_mem_cons.mpr
    ⟨fun hcircle ↦ ?_, h.straight⟩⟩
  · by_cases hchild : k ∈ graph.children id
    · obtain ⟨c, hc, rfl⟩ := List.mem_map.mp (hcounting.ids ▸ hk)
      refine List.mem_append_right _ (List.mem_append_right _ (List.mem_filter.mpr ⟨hchild, ?_⟩))
      refine List.any_eq_true.mpr ⟨c, hc, ?_⟩
      rw [hcounting.pending c hc, hpending, beq_self_eq_true, beq_self_eq_true, Bool.and_self]
    · have hbefore := h.comes_up k hk (by
        rw [pendingEdges_eq hreached hnew, List.count_eq_zero.mpr hchild, hpending])
      rw [List.cons_append, ← List.append_assoc, ← List.cons_append]
      exact List.mem_append_left _ (List.perm_middle.mem_iff.mp hbefore)
  · obtain ⟨d, hd, rfl⟩ := List.mem_map.mp hc
    have hpaths := h.paths d hd
    split
    · rename_i hchild
      -- the routes from the node that is done now are others than those counted before
      refine (hpaths.add (hhere.cons id) ?_).congr fun l ↦ ?_
      · rintro l hl ⟨l', rfl, -⟩
        rcases hl with ⟨-, hnil⟩ | ⟨b, _, heq, hb, -⟩
        · cases hnil
        · exact hnew ((List.cons.inj heq).1 ▸ hb)
      · rw [routeOver_cons, and_iff_right (mem_children.mp hchild)]
    · rename_i hchild
      refine hpaths.congr fun l ↦ ?_
      rw [routeOver_cons, or_iff_left fun hjoins ↦ hchild (mem_children.mpr hjoins.1)]
  · -- the circle would have come up before, at a parent
    obtain ⟨p, hp, hjoins⟩ := hcircle.exists_parent
    exact h.straight p
      (pendingEdges_eq_zero_iff.mp hzero p (mem_reachedFrom.mpr hp.reaches) hjoins) hp

/-- **A count that has come to its end has dealt with every node that no circle leads to.** Among
those left there would be a first one, and no edge to it would be left to follow. -/
theorem pendingEdges_eq_zero_iff_not_circleBetween (h : graph.Tallied source done [] counts)
    (hid : graph.Reaches source id) :
    graph.pendingEdges (graph.reachedFrom source) done id = 0 ↔
      ¬graph.CircleBetween source id := by
  have hdone : ∀ k, graph.Reaches source k →
      graph.pendingEdges (graph.reachedFrom source) done k = 0 → k ∈ done := fun k hk hzero ↦
    List.append_nil done ▸ h.comes_up k (mem_reachedFrom.mpr hk) hzero
  constructor
  · exact fun hzero ↦ h.straight id (hdone id hid hzero)
  · intro hfree
    have hall : ∀ k, graph.Reaches source k → ¬graph.CircleBetween source k → k ∈ done := by
      by_contra! hleft
      obtain ⟨left, hleft⟩ := hleft
      have hfin : {k | graph.Reaches source k ∧ ¬graph.CircleBetween source k ∧ k ∉ done}.Finite :=
        (List.finite_toSet (graph.reachedFrom source)).subset fun k hk ↦ mem_reachedFrom.mpr hk.1
      obtain ⟨first, ⟨hreaches, hfree, hnew⟩, hfirst⟩ := exists_first hfin ⟨left, hleft⟩
        fun k hk hkk ↦ hk.2.1 ⟨k, hk.1, hkk, .refl⟩
      refine hnew (hdone first hreaches (pendingEdges_eq_zero_iff.mpr fun p hp hjoins ↦ ?_))
      by_contra hpnew
      exact hfirst p ⟨mem_reachedFrom.mp hp, fun hcircle ↦ hfree (hcircle.tail hjoins), hpnew⟩
        hjoins
    exact (h.settled id (List.mem_append_left _ (hall id hid hfree))).2

end Tallied

theorem exists_tallied (hs : graph.Sorted) (a : Nat) :
    ∃ done, graph.Tallied a done [] (graph.finalCounts a) := by
  obtain ⟨-, hloops, -⟩ := countsEnd hs a
  exact (hloops.invariant (P := fun (ready, counts) ↦ ∃ done, graph.Tallied a done ready counts)
    ⟨[], Tallied.start graph a⟩ fun (ready, counts) s ⟨done, h⟩ hs' ↦ by
      cases ready with
      | nil => cases hs'
      | cons id ready => exact Option.some.inj hs' ▸ ⟨id :: done, h.step hs⟩).1

/-- The number of paths is read off the final counts: it is that of the routes, unless a circle has
kept the node from coming up. -/
theorem exists_pathCount_eq (hs : graph.Sorted) {a b : Nat} (hab : graph.Reaches a b) :
    ∃ pending paths, graph.pathCount a b = (if 0 < pending then 2 else paths) ∧
      (pending = 0 ↔ ¬graph.CircleBetween a b) ∧
      (pending = 0 → Counts (graph.Route a b) paths) := by
  obtain ⟨done, h⟩ := exists_tallied hs a
  obtain ⟨c, hc, hfind, rfl⟩ := h.exists_find? (mem_reachedFrom.mpr hab)
  have hpending := h.pending c hc
  refine ⟨c.pending, c.paths, ?_, ?_, fun hzero ↦ ?_⟩
  · rw [(countsEnd hs a).2.2, if_neg (not_not.mpr (mem_reachedFrom.mpr hab)), hfind]
  · rw [hpending, h.pendingEdges_eq_zero_iff_not_circleBetween hab]
  · exact (h.paths c hc).congr (routeOver_iff (hpending ▸ hzero))

/-- **Paths are counted**: where there is no circle on the way, the number of paths from one node to
another is that of the routes. -/
theorem counts_pathCount (hs : graph.Sorted) {a b : Nat} (hfree : ¬graph.CircleBetween a b) :
    Counts (graph.Route a b) (graph.pathCount a b) := by
  by_cases hab : graph.Reaches a b
  · obtain ⟨pending, paths, heq, hiff, hpaths⟩ := exists_pathCount_eq hs hab
    obtain rfl := hiff.mpr hfree
    rw [heq, if_neg (Nat.lt_irrefl 0)]
    exact hpaths rfl
  · rw [(countsEnd hs a).2.2, if_pos (mt mem_reachedFrom.mp hab)]
    exact .zero fun l hl ↦ hab hl.reaches

/-- A circle on the way counts for as many paths as there can be. -/
theorem CircleBetween.pathCount_eq (hs : graph.Sorted) {a b : Nat} (h : graph.CircleBetween a b) :
    graph.pathCount a b = 2 := by
  obtain ⟨pending, paths, heq, hiff, -⟩ := exists_pathCount_eq hs h.reaches
  rw [heq, if_pos (Nat.pos_of_ne_zero fun hzero ↦ hiff.mp hzero h)]

/-- In an acyclic graph a child may be folded along the only route. -/
theorem pathCount_le_one_iff (hs : graph.Sorted) (hac : graph.Acyclic) {a b : Nat} :
    graph.pathCount a b ≤ 1 ↔ graph.AtMostOne a b :=
  (counts_pathCount hs (hac.not_circleBetween a b)).le_one_iff

end Graph

end JusticeViolation

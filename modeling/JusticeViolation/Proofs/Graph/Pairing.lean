import JusticeViolation.Proofs.Graph.Contraction

/-!
# Chains of attractors in a tree

In a tree every child is reached in one way only, and so an attractor that is looked at takes in all
its children that are attractors. It does not go on from there: what a child led to waits to be
looked at by itself. So an attractor takes in its children exactly if it has not been taken in
itself, and of every chain the first is merged with the second, the third with the fourth, and so
on. Two attractors stay joined wherever three follow one another.

The proof carries through the search which nodes have been *dealt with*: they have been looked at,
or they have been taken in. A child waits to be looked at as soon as its parent has been dealt with,
and not before.
-/

namespace JusticeViolation.Graph

variable {sp : Space} {g : Game sp} {graph graph' : Graph sp}

/-! ## Trees -/

/-- Every node is reached from the initial one along exactly one route. -/
structure Tree (graph : Graph sp) : Prop extends Rooted graph where
  route : ∀ n ∈ graph.nodes, ∃! l, graph.Route initialId n.id l

namespace Tree

variable (h : graph.Tree)

include h

theorem reaches {n : Node sp} (hn : n ∈ graph.nodes) : graph.Reaches initialId n.id :=
  (h.route n hn).exists.elim fun _ hl ↦ hl.reaches

/-- Routes to the same node are the same. -/
theorem route_unique {n : Node sp} {l l' : List Nat} (hn : n ∈ graph.nodes)
    (hl : graph.Route initialId n.id l) (hl' : graph.Route initialId n.id l') : l = l' :=
  (h.route n hn).unique hl hl'

/-- A node has one parent. -/
theorem parent_unique {a b c : Nat} (hac : graph.Joins a c) (hbc : graph.Joins b c) : a = b := by
  obtain ⟨⟨n, hn, rfl⟩, ⟨k, hk, rfl⟩, -⟩ := h.ends _ _ hac
  obtain ⟨⟨m, hm, rfl⟩, -, -⟩ := h.ends _ _ hbc
  obtain ⟨l, hl⟩ := (h.route n hn).exists
  obtain ⟨l', hl'⟩ := (h.route m hm).exists
  exact (List.cons.inj (h.route_unique hk (hl.step hac) (hl'.step hbc))).1

/-- The initial node has no parent. -/
theorem not_joins_initialId (a : Nat) : ¬graph.Joins a initialId := fun ha ↦ by
  obtain ⟨⟨n, hn, rfl⟩, ⟨r, hr, hr0⟩, -⟩ := h.ends _ _ ha
  obtain ⟨l, hl⟩ := (h.route n hn).exists
  have hlong : graph.Route initialId r.id (n.id :: l) := by
    rw [hr0]
    exact hl.step ha
  have hnil : graph.Route initialId r.id [] := by
    rw [hr0]
    exact .here
  exact List.cons_ne_nil _ _ (h.route_unique hr hlong hnil)

theorem acyclic : graph.Acyclic := fun a ha ↦ by
  obtain ⟨b, hab, hba⟩ := Relation.TransGen.tail'_iff.mp ha
  obtain ⟨-, ⟨n, hn, rfl⟩, -⟩ := h.ends _ _ hba
  obtain ⟨l, hl⟩ := (h.route n hn).exists
  obtain ⟨l', hl'⟩ := Reaches.exists_route hab
  -- the way round makes a longer route to the same node
  have hlength := congrArg List.length (h.route_unique hn hl (hl.append (hl'.step hba)))
  rw [List.length_append, List.length_cons] at hlength
  omega

end Tree

/-! ## Attractors -/

/-- There is an attractor of a number. -/
def AttractorAt (graph : Graph sp) (id : Nat) : Prop :=
  ∃ n ∈ graph.nodes, n.id = id ∧ n.kind.isAttractor = true

/-- What attractors are merged to is an attractor, and nothing else is. -/
theorem Quotient.attractorAt_iff {f : Nat → Nat} (h : Quotient f graph graph') (hs : graph.Simple)
    {n : Node sp} (hn : n ∈ graph.nodes) :
    graph'.AttractorAt (f n.id) ↔ graph.AttractorAt n.id := by
  have hsame : ∀ n' ∈ graph'.nodes, n'.id = f n.id →
      (n'.kind.isAttractor = true ↔ n.kind.isAttractor = true) := fun n' hn' hid ↦ by
    obtain ⟨m, hm, hmn, -, hbody, -⟩ := h.exists_member n' hn'
    rw [Node.kind, hbody]
    by_cases heq : m.id = n.id
    · rw [← hs.eq_of_id_eq hm hn heq, Node.kind]
    · have hmn' : f m.id = f n.id := hmn.trans hid
      exact iff_of_true (h.isAttractor m hm n hn hmn' heq)
        (h.isAttractor n hn m hm hmn'.symm (Ne.symm heq))
  constructor
  · rintro ⟨n', hn', hid, hkind⟩
    exact ⟨n, hn, rfl, (hsame n' hn' hid).mp hkind⟩
  · rintro ⟨m, hm, hmn, hkind⟩
    obtain ⟨n', hn', hid⟩ := h.exists_node n hn
    rw [hs.eq_of_id_eq hm hn hmn] at hkind
    exact ⟨n', hn', hid, (hsame n' hn' hid).mpr hkind⟩

/-! ## Parents that take in their children -/

/-- A node has been folded into another. -/
def Taken (folded : List (Nat × Nat)) (id : Nat) : Prop := ∃ parent, (parent, id) ∈ folded

theorem Taken.append {folded : List (Nat × Nat)} {id : Nat} (h : Taken folded id)
    (more : List (Nat × Nat)) : Taken (folded ++ more) id :=
  h.imp fun _ hp ↦ List.mem_append_left _ hp

theorem taken_append_singleton {folded : List (Nat × Nat)} {parent child id : Nat} :
    Taken (folded ++ [(parent, child)]) id ↔ Taken folded id ∨ id = child := by
  constructor
  · rintro ⟨p, hp⟩
    rcases List.mem_append.mp hp with hp | hp
    · exact Or.inl ⟨p, hp⟩
    · exact Or.inr (Prod.mk.inj (List.mem_singleton.mp hp)).2
  · rintro (h | rfl)
    · exact h.append _
    · exact ⟨parent, List.mem_append_right _ List.mem_cons_self⟩

theorem home_eq_self {folded : List (Nat × Nat)} {id : Nat} (h : ¬Taken folded id) :
    home folded id = id := by
  induction folded with
  | nil => rfl
  | cons p folded ih =>
    obtain ⟨parent, child⟩ := p
    have hne : id ≠ child := fun heq ↦ h ⟨parent, heq ▸ List.mem_cons_self⟩
    have hstay : foldInto parent child id = id := if_neg hne
    rw [home_cons, hstay]
    exact ih fun ⟨q, hq⟩ ↦ h ⟨q, List.mem_cons_of_mem _ hq⟩

/-- Where parents are not taken in themselves, a child stays with the one that took it. -/
theorem home_eq_of_mem {folded : List (Nat × Nat)} {parent id : Nat}
    (hparents : ∀ a b, (a, b) ∈ folded → ¬Taken folded a)
    (hone : ∀ q, (q, id) ∈ folded → q = parent) (hmem : (parent, id) ∈ folded) :
    home folded id = parent := by
  induction folded with
  | nil => exact absurd hmem List.not_mem_nil
  | cons p folded ih =>
    obtain ⟨a, b⟩ := p
    rw [home_cons]
    by_cases hid : id = b
    · have hgone : foldInto a b id = parent :=
        (if_pos hid).trans (hone a (hid ▸ List.mem_cons_self))
      rw [hgone]
      exact home_eq_self fun ⟨q, hq⟩ ↦
        hparents parent id hmem ⟨q, List.mem_cons_of_mem _ hq⟩
    · have hstay : foldInto a b id = id := if_neg hid
      rw [hstay]
      refine ih (fun a b hab ⟨q, hq⟩ ↦ ?_) (fun q hq ↦ hone q (List.mem_cons_of_mem _ hq)) ?_
      · exact hparents a b (List.mem_cons_of_mem _ hab) ⟨q, List.mem_cons_of_mem _ hq⟩
      · exact (List.mem_cons.mp hmem).resolve_left fun heq ↦ hid (Prod.mk.inj heq).2

/-! ## The search in a tree -/

/-- What is known of a search in a tree: the nodes in `seen` have been looked at, and of `id`, the
last of them, the children in `rest` have not been looked at yet. -/
structure Paired (graph : Graph sp) (seen : List Nat) (id : Nat) (rest : List Nat)
    (s : Merging sp) : Prop where
  contracts : Contracts graph s.folded s.graph
  folded : ∀ p c, (p, c) ∈ s.folded →
    graph.Joins p c ∧ graph.AttractorAt p ∧ graph.AttractorAt c ∧ p ∈ seen
  /-- What is looked at is not taken in. -/
  free : ∀ x, x ∈ seen ∨ x ∈ s.queue → ¬Taken s.folded x
  /-- A node does not wait before its parent has been dealt with. -/
  met : ∀ x, x ∈ seen ∨ x ∈ s.queue →
    x = initialId ∨ ∃ q, graph.Joins q x ∧ (q ∈ seen ∨ Taken s.folded q)
  fresh : ∀ c ∈ rest, graph.Joins id c ∧ c ∉ seen ∧ c ∉ s.queue ∧ ¬Taken s.folded c
  looked : ∀ p ∈ seen, ∀ c, graph.Joins p c → graph.AttractorAt p → graph.AttractorAt c →
    (p, c) ∈ s.folded ∨ p = id ∧ c ∈ rest
  /-- When its parent has been dealt with, a node is taken in, or it waits. -/
  waits : ∀ p, p ∈ seen ∨ Taken s.folded p → ∀ c, graph.Joins p c →
    (c ∈ seen ∨ c ∈ s.queue ∨ Taken s.folded c) ∨ p = id ∧ c ∈ rest
  start : initialId ∈ seen ∨ initialId ∈ s.queue

namespace Paired

variable {seen rest : List Nat} {id a b c : Nat} {s : Merging sp} (ht : graph.Tree)
  (h : Paired graph seen id rest s)

include ht h

/-- A node that has been taken in is at its parent. -/
theorem home_of_mem (hmem : (a, b) ∈ s.folded) : home s.folded b = a :=
  home_eq_of_mem (fun p _ hp ↦ h.free p (Or.inl (h.folded _ _ hp).2.2.2))
    (fun _ hq ↦ ht.parent_unique (h.folded _ _ hq).1 (h.folded _ _ hmem).1) hmem

/-- Only a node itself and its children are found at it. -/
theorem eq_or_mem_of_home (hab : home s.folded a = b) : a = b ∨ (b, a) ∈ s.folded := by
  by_cases hfree : Taken s.folded a
  · obtain ⟨p, hp⟩ := hfree
    rw [h.home_of_mem ht hp] at hab
    exact Or.inr (hab ▸ hp)
  · exact Or.inl ((home_eq_self hfree).symm.trans hab)

/-- A node that has not been dealt with has the children that it had. -/
theorem joins_iff (ha : a ∉ seen) (hfree : ¬Taken s.folded a) :
    s.graph.Joins a c ↔ graph.Joins a c := by
  rw [(h.contracts.quotient ht.toRooted).joins]
  constructor
  · rintro ⟨hne, a', c', hjoins, ha', hc'⟩
    rcases h.eq_or_mem_of_home ht ha' with rfl | hmem
    · rcases h.eq_or_mem_of_home ht hc' with rfl | hmem'
      · exact hjoins
      · exact absurd (ht.parent_unique hjoins (h.folded _ _ hmem').1) hne
    · exact absurd (h.folded _ _ hmem).2.2.2 ha
  · intro hjoins
    refine ⟨(ht.ends _ _ hjoins).2.2, a, c, hjoins, home_eq_self hfree, home_eq_self ?_⟩
    rintro ⟨p, hp⟩
    have hpa : p = a := ht.parent_unique (h.folded _ _ hp).1 hjoins
    exact ha (hpa ▸ (h.folded _ _ hp).2.2.2)

/-- A node still has a single parent. -/
theorem parent_unique (hac : s.graph.Joins a c) (hbc : s.graph.Joins b c) : a = b := by
  have hquotient := h.contracts.quotient ht.toRooted
  -- what is found at a child has been taken in by it, and so comes from nowhere else
  have harrives : ∀ {a : Nat}, s.graph.Joins a c →
      ∃ a', graph.Joins a' c ∧ home s.folded a' = a := fun {a} hac ↦ by
    obtain ⟨hne, a', c', hjoins, ha', hc'⟩ := (hquotient.joins _ _).mp hac
    rcases h.eq_or_mem_of_home ht hc' with rfl | hmem
    · exact ⟨a', hjoins, ha'⟩
    · obtain ⟨hjoins', -, -, hseen⟩ := h.folded _ _ hmem
      rw [ht.parent_unique hjoins hjoins', home_eq_self (h.free c (Or.inl hseen))] at ha'
      exact absurd ha'.symm hne
  obtain ⟨a', hac', rfl⟩ := harrives hac
  obtain ⟨b', hbc', rfl⟩ := harrives hbc
  rw [ht.parent_unique hac' hbc']

/-- The nodes that have not been taken in are there, and they are attractors if they were. -/
theorem node?_eq_some (hid : ∃ n ∈ graph.nodes, n.id = a) (hfree : ¬Taken s.folded a) :
    ∃ n, s.graph.node? a = some n ∧ (n.kind.isAttractor = true ↔ graph.AttractorAt a) := by
  obtain ⟨m, hm, rfl⟩ := hid
  have hquotient := h.contracts.quotient ht.toRooted
  have hsimple := (h.contracts.rooted ht.toRooted).toSimple
  have hattractor := hquotient.attractorAt_iff ht.toSimple hm
  obtain ⟨n, hn, hid⟩ := hquotient.exists_node m hm
  rw [home_eq_self hfree] at hid hattractor
  refine ⟨n, hid ▸ hsimple.node?_eq_some hn, ?_⟩
  rw [← hattractor]
  refine ⟨fun hkind ↦ ⟨n, hn, hid, hkind⟩, fun ⟨k, hk, hkid, hkind⟩ ↦ ?_⟩
  rwa [hsimple.eq_of_id_eq hn hk (hid.trans hkid.symm)]

/-- **Every attractor is foldable** into what it is a child of. -/
theorem foldable_iff (hs : graph.Sorted) (hid : ∃ n ∈ graph.nodes, n.id = c)
    (hfree : ¬Taken s.folded c) : s.graph.foldable a c = true ↔ graph.AttractorAt c := by
  obtain ⟨n, hn, hkind⟩ := h.node?_eq_some ht hid hfree
  have hacyclic := h.contracts.acyclic ht.toRooted hs ht.acyclic
  have hcount : s.graph.pathCount a c ≤ 1 :=
    (pathCount_le_one_iff (h.contracts.sorted hs) hacyclic).mpr
      (hacyclic.atMostOne (fun _ _ _ hac hbc ↦ h.parent_unique ht hac hbc) a c)
  rw [foldable, hn, Option.any_some, Bool.and_eq_true, decide_eq_true_iff, and_iff_left hcount,
    hkind]

omit ht h in
/-- A child that is not an attractor, or not a child of one, waits. -/
theorem push (h : Paired graph seen id (c :: rest) s) (hid : id ∈ seen) (hnew : c ∉ rest)
    (hkind : graph.AttractorAt id → ¬graph.AttractorAt c) :
    Paired graph seen id rest { s with queue := s.queue ++ [c] } := by
  obtain ⟨⟨hjoins, hseen, hqueue, hfree⟩, hrest⟩ := List.forall_mem_cons.mp h.fresh
  have hcases : ∀ x, x ∈ seen ∨ x ∈ s.queue ++ [c] → (x ∈ seen ∨ x ∈ s.queue) ∨ x = c := by
    intro x hx
    rw [List.mem_append, List.mem_singleton, ← or_assoc] at hx
    exact hx
  refine { h with
    free := fun x hx ↦ ?_, met := fun x hx ↦ ?_, fresh := fun k hk ↦ ?_,
    looked := fun p hp k hjoins' hpk hkk ↦ ?_, waits := fun p hp k hjoins' ↦ ?_,
    start := h.start.imp_right (List.mem_append_left _) }
  · rcases hcases x hx with hx | rfl
    · exact h.free x hx
    · exact hfree
  · rcases hcases x hx with hx | rfl
    · exact h.met x hx
    · exact Or.inr ⟨id, hjoins, Or.inl hid⟩
  · obtain ⟨hjoins', hseen', hqueue', hfree'⟩ := hrest k hk
    refine ⟨hjoins', hseen', fun hmem ↦ ?_, hfree'⟩
    rcases List.mem_append.mp hmem with hmem | hmem
    · exact hqueue' hmem
    · exact hnew (List.mem_singleton.mp hmem ▸ hk)
  · rcases h.looked p hp k hjoins' hpk hkk with hmem | ⟨rfl, hk⟩
    · exact Or.inl hmem
    · rcases List.mem_cons.mp hk with rfl | hk
      · exact absurd hkk (hkind hpk)
      · exact Or.inr ⟨rfl, hk⟩
  · rcases h.waits p hp k hjoins' with hdone | ⟨rfl, hk⟩
    · exact Or.inl (hdone.imp_right (Or.imp_left (List.mem_append_left _)))
    · rcases List.mem_cons.mp hk with rfl | hk
      · exact Or.inl (Or.inr (Or.inl (List.mem_append_right _ List.mem_cons_self)))
      · exact Or.inr ⟨rfl, hk⟩

omit h in
/-- A child that is taken in leaves its own children waiting. -/
theorem take (h : Paired graph seen id (c :: rest) s) (hid : id ∈ seen) (hnew : c ∉ rest)
    (hkind : graph.AttractorAt id) (hkind' : graph.AttractorAt c) {s' : Merging sp}
    (hcontracts : Contracts graph s'.folded s'.graph) (hfolded : s'.folded = s.folded ++ [(id, c)])
    (hqueue : s'.queue = s.queue ++ (s.graph.children c).filter (· != id)) :
    Paired graph seen id rest s' := by
  obtain ⟨⟨hjoins, hseen, hwaiting, hfree⟩, hrest⟩ := List.forall_mem_cons.mp h.fresh
  have hchildren : ∀ k, k ∈ (s.graph.children c).filter (· != id) ↔ graph.Joins c k := fun k ↦ by
    rw [List.mem_filter, mem_children, h.joins_iff ht hseen hfree, bne_iff_ne,
      and_iff_left_iff_imp]
    -- the parent is not a child of its child
    rintro hck rfl
    exact ht.acyclic.not_reaches hjoins (.single hck)
  have hcases : ∀ x, x ∈ seen ∨ x ∈ s'.queue → (x ∈ seen ∨ x ∈ s.queue) ∨ graph.Joins c x := by
    intro x hx
    rw [hqueue, List.mem_append, hchildren, ← or_assoc] at hx
    exact hx
  have htaken : ∀ x, Taken s'.folded x ↔ Taken s.folded x ∨ x = c := fun x ↦ by
    rw [hfolded, taken_append_singleton]
  have hchild : ∀ {k : Nat}, graph.Joins c k → ¬Taken s.folded k := fun hck ⟨p, hp⟩ ↦ by
    obtain ⟨hpk, -, -, hp⟩ := h.folded _ _ hp
    exact hseen (ht.parent_unique hpk hck ▸ hp)
  exact {
    contracts := hcontracts
    folded := fun p k hmem ↦ by
      rw [hfolded] at hmem
      rcases List.mem_append.mp hmem with hmem | hmem
      · exact h.folded p k hmem
      · obtain ⟨rfl, rfl⟩ := Prod.mk.inj (List.mem_singleton.mp hmem)
        exact ⟨hjoins, hkind, hkind', hid⟩
    free := fun x hx ↦ by
      rw [htaken, not_or]
      rcases hcases x hx with hx | hcx
      · refine ⟨h.free x hx, ?_⟩
        rintro rfl
        exact hx.elim hseen hwaiting
      · exact ⟨hchild hcx, (ht.ends _ _ hcx).2.2.symm⟩
    met := fun x hx ↦ by
      rcases hcases x hx with hx | hcx
      · refine (h.met x hx).imp_right fun ⟨q, hqx, hq⟩ ↦ ⟨q, hqx, hq.imp_right fun hq ↦ ?_⟩
        exact (htaken q).mpr (Or.inl hq)
      · exact Or.inr ⟨c, hcx, Or.inr ((htaken c).mpr (Or.inr rfl))⟩
    fresh := fun k hk ↦ by
      obtain ⟨hik, hseen', hwaiting', hfree'⟩ := hrest k hk
      refine ⟨hik, hseen', fun hmem ↦ ?_, fun hmem ↦ ?_⟩
      · rw [hqueue, List.mem_append, hchildren] at hmem
        rcases hmem with hmem | hck
        · exact hwaiting' hmem
        · exact hseen (ht.parent_unique hik hck ▸ hid)
      · rcases (htaken k).mp hmem with hmem | rfl
        · exact hfree' hmem
        · exact hnew hk
    looked := fun p hp k hpk hpa hka ↦ by
      rw [hfolded, List.mem_append]
      rcases h.looked p hp k hpk hpa hka with hmem | ⟨rfl, hk⟩
      · exact Or.inl (Or.inl hmem)
      · rcases List.mem_cons.mp hk with rfl | hk
        · exact Or.inl (Or.inr List.mem_cons_self)
        · exact Or.inr ⟨rfl, hk⟩
    waits := fun p hp k hpk ↦ by
      rw [htaken, hqueue, List.mem_append, hchildren]
      rw [htaken, ← or_assoc] at hp
      rcases hp with hp | rfl
      · rcases h.waits p hp k hpk with (hk | hk | hk) | ⟨rfl, hk⟩
        · exact Or.inl (Or.inl hk)
        · exact Or.inl (Or.inr (Or.inl (Or.inl hk)))
        · exact Or.inl (Or.inr (Or.inr (Or.inl hk)))
        · rcases List.mem_cons.mp hk with rfl | hk
          · exact Or.inl (Or.inr (Or.inr (Or.inr rfl)))
          · exact Or.inr ⟨rfl, hk⟩
      · exact Or.inl (Or.inr (Or.inl (Or.inr hpk)))
    start := h.start.imp_right fun h0 ↦ hqueue ▸ List.mem_append_left _ h0 }

omit h in
/-- **Looking at one child.** -/
theorem visitChild (hs : graph.Sorted) (h : Paired graph seen id (c :: rest) s) (hid : id ∈ seen)
    (hnew : c ∉ rest) (hkind : graph.AttractorAt id) :
    Paired graph seen id rest (s.visitChild id c) := by
  obtain ⟨hjoins, -, -, hfree⟩ := h.fresh c List.mem_cons_self
  have hhome := home_eq_self (h.free id (Or.inl hid))
  obtain ⟨⟨n, hn, rfl⟩, hnode, hne⟩ := ht.ends _ _ hjoins
  have hquotient := h.contracts.quotient ht.toRooted
  have hlooks : s.Looks n.id := by
    have hattractor := (hquotient.attractorAt_iff ht.toSimple hn).mpr hkind
    rwa [hhome] at hattractor
  have hstill : s.graph.Joins n.id c :=
    (hquotient.joins _ _).mpr ⟨hne, n.id, c, hjoins, hhome, home_eq_self hfree⟩
  obtain ⟨hcontracts, -⟩ := Merging.contracts_visitChild ht.toRooted h.contracts hlooks hstill
  have hfoldable := h.foldable_iff ht (a := n.id) hs hnode hfree
  unfold Merging.visitChild at hcontracts ⊢
  split
  · rename_i hfold
    rw [if_pos hfold] at hcontracts
    exact h.take ht hid hnew hkind (hfoldable.mp hfold) hcontracts rfl rfl
  · rename_i hfold
    exact h.push hid hnew fun _ hc ↦ hfold (hfoldable.mpr hc)

omit h in
theorem visitChildren (hs : graph.Sorted) (h : Paired graph seen id rest s) (hid : id ∈ seen)
    (hnodup : rest.Nodup) (hkind : graph.AttractorAt id) :
    Paired graph seen id [] (rest.foldl (fun s child ↦ s.visitChild id child) s) := by
  induction rest generalizing s with
  | nil => exact h
  | cons c rest ih =>
    obtain ⟨hnew, hnodup⟩ := List.nodup_cons.mp hnodup
    exact ih (h.visitChild ht hs hid hnew hkind) hnodup

omit ht h in
theorem pushAll (h : Paired graph seen id rest s) (hid : id ∈ seen) (hnodup : rest.Nodup)
    (hkind : ¬graph.AttractorAt id) :
    Paired graph seen id [] { s with queue := s.queue ++ rest } := by
  induction rest generalizing s with
  | nil =>
    rw [List.append_nil]
    exact h
  | cons c rest ih =>
    obtain ⟨hnew, hnodup⟩ := List.nodup_cons.mp hnodup
    have hpaired := ih (h.push hid hnew fun hk ↦ absurd hk hkind) hnodup
    rwa [List.append_assoc, List.singleton_append] at hpaired

omit h in
/-- **The search comes to a node**, whose children it has not met. -/
theorem dequeue (h : Paired graph seen id [] s) {queue : List Nat}
    (hnext : nextUnseen? seen s.queue = some (a, queue)) :
    Paired graph (a :: seen) a (s.graph.children a) { s with queue } ∧
      (∃ n ∈ graph.nodes, n.id = a) ∧ ¬Taken s.folded a := by
  obtain ⟨hseen, front, hfront, hqueue⟩ := Merging.nextUnseen?_eq_some hnext
  have hsame : ∀ x, x ∈ a :: seen ∨ x ∈ queue ↔ x ∈ seen ∨ x ∈ s.queue := fun x ↦ by
    rw [hqueue, List.mem_append, List.mem_cons, List.mem_cons]
    constructor
    · rintro ((rfl | hx) | hx)
      · exact Or.inr (Or.inr (Or.inl rfl))
      · exact Or.inl hx
      · exact Or.inr (Or.inr (Or.inr hx))
    · rintro (hx | hx | rfl | hx)
      · exact Or.inl (Or.inr hx)
      · exact Or.inl (Or.inr (hfront x hx))
      · exact Or.inl (Or.inl rfl)
      · exact Or.inr hx
  have hwaiting : a ∈ seen ∨ a ∈ s.queue := (hsame a).mp (Or.inl List.mem_cons_self)
  have hfree := h.free a hwaiting
  have hchildren : ∀ c, c ∈ s.graph.children a ↔ graph.Joins a c := fun c ↦ by
    rw [mem_children, h.joins_iff ht hseen hfree]
  refine ⟨{
    contracts := h.contracts
    folded := fun p c hmem ↦ by
      obtain ⟨hjoins, hp, hc, hmem⟩ := h.folded p c hmem
      exact ⟨hjoins, hp, hc, List.mem_cons_of_mem _ hmem⟩
    free := fun x hx ↦ h.free x ((hsame x).mp hx)
    met := fun x hx ↦ (h.met x ((hsame x).mp hx)).imp_right fun ⟨q, hqx, hq⟩ ↦
      ⟨q, hqx, hq.imp_left (List.mem_cons_of_mem _)⟩
    fresh := fun c hc ↦ by
      have hac := (hchildren c).mp hc
      -- had the child been met, its parent would have been dealt with
      have hunmet : ¬(c ∈ seen ∨ c ∈ s.queue) := fun hc ↦ by
        rcases h.met c hc with rfl | ⟨q, hqc, hq⟩
        · exact ht.not_joins_initialId a hac
        · rw [ht.parent_unique hqc hac] at hq
          exact hq.elim hseen hfree
      rw [← hsame, not_or] at hunmet
      refine ⟨hac, hunmet.1, hunmet.2, fun ⟨p, hp⟩ ↦ ?_⟩
      obtain ⟨hpc, -, -, hp⟩ := h.folded _ _ hp
      exact hseen (ht.parent_unique hpc hac ▸ hp)
    looked := fun p hp c hpc hpa hca ↦ by
      rcases List.mem_cons.mp hp with rfl | hp
      · exact Or.inr ⟨rfl, (hchildren c).mpr hpc⟩
      · refine Or.inl ((h.looked p hp c hpc hpa hca).resolve_right fun hc ↦ ?_)
        exact List.not_mem_nil hc.2
    waits := fun p hp c hpc ↦ by
      rw [List.mem_cons, or_assoc] at hp
      rcases hp with rfl | hp
      · exact Or.inr ⟨rfl, (hchildren c).mpr hpc⟩
      · have hc := (h.waits p hp c hpc).resolve_right fun hc ↦ List.not_mem_nil hc.2
        rw [← or_assoc, ← hsame, or_assoc] at hc
        exact Or.inl hc
    start := (hsame initialId).mpr h.start }, ?_, hfree⟩
  rcases h.met a hwaiting with rfl | ⟨q, hqa, -⟩
  · obtain ⟨r, hr, hr0, -⟩ := ht.root
    exact ⟨r, hr, hr0⟩
  · exact (ht.ends _ _ hqa).2.1

omit h in
/-- **Looking at one node.** -/
theorem visit (hs : graph.Sorted) (h : Paired graph seen id [] s) {queue : List Nat}
    (hnext : nextUnseen? seen s.queue = some (a, queue)) :
    Paired graph (a :: seen) a [] (Merging.visit { s with queue } a) := by
  obtain ⟨hpaired, hnode, hfree⟩ := h.dequeue ht hnext
  obtain ⟨n, hn, hkind⟩ := hpaired.node?_eq_some ht hnode hfree
  have hnodup : (s.graph.children a).Nodup :=
    (pairwise_children (h.contracts.sorted hs) a).imp fun hlt ↦ Nat.ne_of_lt hlt
  unfold Merging.visit
  rw [hn]
  dsimp only
  split
  · rename_i hattractor
    exact hpaired.visitChildren ht hs List.mem_cons_self hnodup (hkind.mp hattractor)
  · rename_i hattractor
    exact hpaired.pushAll List.mem_cons_self hnodup fun hk ↦ hattractor (hkind.mpr hk)

end Paired

/-- **At the end of the search** every node has been dealt with. -/
theorem exists_paired_merging (ht : graph.Tree) (hs : graph.Sorted) :
    ∃ seen id, Paired graph seen id [] graph.merging ∧
      ∀ n ∈ graph.nodes, n.id ∈ seen ∨ Taken graph.foldings n.id := by
  obtain ⟨seen, hloops⟩ := exists_loops_merging ht.toRooted hs
  obtain ⟨⟨id, h⟩, hend⟩ := hloops.invariant (P := fun t ↦ ∃ id, Paired graph t.1 id [] t.2)
    ⟨initialId, {
      contracts := .start
      folded := fun _ _ hmem ↦ absurd hmem List.not_mem_nil
      free := fun _ _ ⟨_, hp⟩ ↦ List.not_mem_nil hp
      met := fun _ hx ↦ Or.inl (List.mem_singleton.mp (hx.resolve_left List.not_mem_nil))
      fresh := fun _ hc ↦ absurd hc List.not_mem_nil
      looked := fun _ hp ↦ absurd hp List.not_mem_nil
      waits := fun _ hp ↦ hp.elim (fun hp ↦ absurd hp List.not_mem_nil)
        fun ⟨_, hp⟩ ↦ absurd hp List.not_mem_nil
      start := Or.inr List.mem_cons_self }⟩
    (by
      rintro ⟨seen, s⟩ t ⟨id, h⟩ hround
      obtain ⟨⟨a, queue⟩, hnext, rfl⟩ := Option.map_eq_some_iff.mp hround
      exact ⟨a, h.visit ht hs hnext⟩)
  have hqueue := nextUnseen?_eq_none (Option.map_eq_none_iff.mp hend)
  have hdealt : ∀ x, graph.Reaches initialId x → x ∈ seen ∨ Taken graph.foldings x := by
    intro x hx
    induction hx with
    | refl => exact Or.inl (h.start.elim (fun h0 ↦ h0) (hqueue _))
    | @tail p c _ hpc ih =>
      rcases h.waits p ih c hpc with (hc | hc | hc) | ⟨-, hc⟩
      · exact Or.inl hc
      · exact Or.inl (hqueue c hc)
      · exact Or.inr hc
      · exact absurd hc List.not_mem_nil
  exact ⟨seen, id, h, fun n hn ↦ hdealt n.id (ht.reaches hn)⟩

end JusticeViolation.Graph

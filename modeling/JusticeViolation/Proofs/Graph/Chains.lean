import JusticeViolation.Proofs.Graph.Pairing

/-!
# What becomes of the chains of a tree

Which foldings are reported for a tree is determined by one equivalence: an attractor takes in each
child that is an attractor, unless it has been taken in itself. Down a chain of attractors that
alternates. The first takes in the second, the third takes in the fourth, and so a chain of `n`
attractors leaves one node for every two, rounded up, with edges from each to the next.
-/

namespace JusticeViolation.Graph

variable {sp : Space} {g : Game sp} {graph : Graph sp} (ht : graph.Tree) (hs : graph.Sorted)

include ht hs

/-! ## Who takes in whom -/

/-- **An attractor takes in its children** if it has not been taken in itself. -/
theorem mem_foldings_iff {parent child : Nat} : (parent, child) ∈ graph.foldings ↔
    graph.Joins parent child ∧ graph.AttractorAt parent ∧ graph.AttractorAt child ∧
      ¬Taken graph.foldings parent := by
  obtain ⟨seen, id, h, hdealt⟩ := exists_paired_merging ht hs
  constructor
  · intro hmem
    obtain ⟨hjoins, hparent, hchild, hseen⟩ := h.folded _ _ hmem
    exact ⟨hjoins, hparent, hchild, h.free _ (Or.inl hseen)⟩
  · rintro ⟨hjoins, hparent, hchild, hfree⟩
    obtain ⟨⟨n, hn, rfl⟩, -, -⟩ := ht.ends _ _ hjoins
    have hseen := (hdealt n hn).resolve_right hfree
    refine (h.looked n.id hseen child hjoins hparent hchild).resolve_right ?_
    exact fun hrest ↦ List.not_mem_nil hrest.2

/-- A child is taken in by its parent if by any node. -/
theorem taken_iff {parent child : Nat} (h : graph.Joins parent child) :
    Taken graph.foldings child ↔ (parent, child) ∈ graph.foldings := by
  refine ⟨fun ⟨p, hp⟩ ↦ ?_, fun hmem ↦ ⟨parent, hmem⟩⟩
  rwa [ht.parent_unique h ((mem_foldings_iff ht hs).mp hp).1]

theorem home_eq_of_mem_foldings {parent child : Nat} (h : (parent, child) ∈ graph.foldings) :
    home graph.foldings child = parent := by
  obtain ⟨seen, id, hpaired, -⟩ := exists_paired_merging ht hs
  exact hpaired.home_of_mem ht h

/-- A child of a node that has been taken in goes elsewhere. -/
theorem home_ne_of_joins {a b : Nat} (h : graph.Joins a b) (htaken : Taken graph.foldings a) :
    home graph.foldings a ≠ home graph.foldings b := by
  obtain ⟨p, hp⟩ := htaken
  have hfree : ¬Taken graph.foldings b := fun hb ↦
    ((mem_foldings_iff ht hs).mp ((taken_iff ht hs h).mp hb)).2.2.2 ⟨p, hp⟩
  rw [home_eq_of_mem_foldings ht hs hp, home_eq_self hfree]
  rintro rfl
  exact ht.acyclic.not_reaches h (.single ((mem_foldings_iff ht hs).mp hp).1)

/-- **What is merged**: a node with what it takes in. -/
theorem home_eq_home_iff {a b : Nat} : home graph.foldings a = home graph.foldings b ↔
    a = b ∨ (a, b) ∈ graph.foldings ∨ (b, a) ∈ graph.foldings ∨
      ∃ parent, (parent, a) ∈ graph.foldings ∧ (parent, b) ∈ graph.foldings := by
  have hgoes : ∀ {p c : Nat}, (p, c) ∈ graph.foldings →
      home graph.foldings c = p ∧ home graph.foldings p = p := fun hmem ↦
    ⟨home_eq_of_mem_foldings ht hs hmem,
      home_eq_self ((mem_foldings_iff ht hs).mp hmem).2.2.2⟩
  constructor
  · intro hab
    by_cases ha : Taken graph.foldings a
    · obtain ⟨p, hp⟩ := ha
      rw [(hgoes hp).1] at hab
      by_cases hb : Taken graph.foldings b
      · obtain ⟨q, hq⟩ := hb
        rw [(hgoes hq).1] at hab
        exact Or.inr (Or.inr (Or.inr ⟨p, hp, hab ▸ hq⟩))
      · rw [home_eq_self hb] at hab
        exact Or.inr (Or.inr (Or.inl (hab ▸ hp)))
    · rw [home_eq_self ha] at hab
      by_cases hb : Taken graph.foldings b
      · obtain ⟨q, hq⟩ := hb
        rw [(hgoes hq).1] at hab
        exact Or.inr (Or.inl (hab ▸ hq))
      · rw [home_eq_self hb] at hab
        exact Or.inl hab
  · rintro (rfl | hmem | hmem | ⟨p, hpa, hpb⟩)
    · rfl
    · rw [(hgoes hmem).1, (hgoes hmem).2]
    · rw [(hgoes hmem).1, (hgoes hmem).2]
    · rw [(hgoes hpa).1, (hgoes hpb).1]

omit ht in
theorem destination_eq_iff (hr : graph.Rooted) {a b : Nat} (ha : ∃ n ∈ graph.nodes, n.id = a)
    (hb : ∃ n ∈ graph.nodes, n.id = b) : graph.destination a = graph.destination b ↔
      home graph.foldings a = home graph.foldings b := by
  obtain ⟨n, hn, rfl⟩ := ha
  obtain ⟨m, hm, rfl⟩ := hb
  exact ⟨destination_inj hr hs hn hm, congrArg graph.merging.graph.position⟩

/-! ## Attractors that stay joined -/

/-- **Two attractors stay joined** wherever three follow one another, and nowhere else. -/
theorem exists_joins_attractors_iff (refresh : Bool) :
    let merged := graph.mergeAttractors g refresh
    (∃ a b, merged.Joins a b ∧ merged.AttractorAt a ∧ merged.AttractorAt b) ↔
      ∃ a b c, graph.Joins a b ∧ graph.Joins b c ∧
        graph.AttractorAt a ∧ graph.AttractorAt b ∧ graph.AttractorAt c := by
  have hquotient := quotient_destination (g := g) ht.toRooted hs refresh
  have hattractor : ∀ {id : Nat}, (∃ n ∈ graph.nodes, n.id = id) →
      ((graph.mergeAttractors g refresh).AttractorAt (graph.destination id) ↔
        graph.AttractorAt id) := fun ⟨n, hn, hid⟩ ↦
    hid ▸ hquotient.attractorAt_iff ht.toSimple hn
  constructor
  · rintro ⟨a, b, hab, ha, hb⟩
    obtain ⟨hne, p, c, hpc, rfl, rfl⟩ := (hquotient.joins a b).mp hab
    obtain ⟨hp, hc, -⟩ := ht.ends _ _ hpc
    have hpa := (hattractor hp).mp ha
    have hca := (hattractor hc).mp hb
    -- a parent that was free would have taken in its child
    have htaken : Taken graph.foldings p := by
      by_contra hfree
      have hmem := (mem_foldings_iff ht hs).mpr ⟨hpc, hpa, hca, hfree⟩
      refine hne ((destination_eq_iff hs ht.toRooted hp hc).mpr ?_)
      exact (home_eq_home_iff ht hs).mpr (Or.inr (Or.inl hmem))
    obtain ⟨q, hq⟩ := htaken
    obtain ⟨hqp, hqa, -⟩ := (mem_foldings_iff ht hs).mp hq
    exact ⟨q, p, c, hqp, hpc, hqa, hpa, hca⟩
  · rintro ⟨a, b, c, hab, hbc, ha, hb, hc⟩
    have hstays : ∀ {p c : Nat}, graph.Joins p c → graph.AttractorAt p → graph.AttractorAt c →
        Taken graph.foldings p → ∃ a b, (graph.mergeAttractors g refresh).Joins a b ∧
          (graph.mergeAttractors g refresh).AttractorAt a ∧
          (graph.mergeAttractors g refresh).AttractorAt b := by
      intro p c hpc hpa hca htaken
      obtain ⟨hp, hc, -⟩ := ht.ends _ _ hpc
      have hne : graph.destination p ≠ graph.destination c := fun heq ↦
        home_ne_of_joins ht hs hpc htaken ((destination_eq_iff hs ht.toRooted hp hc).mp heq)
      exact ⟨_, _, (hquotient.joins _ _).mpr ⟨hne, p, c, hpc, rfl, rfl⟩,
        (hattractor hp).mpr hpa, (hattractor hc).mpr hca⟩
    by_cases htaken : Taken graph.foldings a
    · exact hstays hab ha hb htaken
    · exact hstays hbc hb hc ⟨a, (mem_foldings_iff ht hs).mpr ⟨hab, ha, hb, htaken⟩⟩

/-! ## Chains -/

omit ht hs in
/-- A chain of attractors, from the first on: its parent is no attractor. -/
structure Chain (graph : Graph sp) (chain : List Nat) : Prop where
  joins : chain.IsChain graph.Joins
  attractor : ∀ c ∈ chain, graph.AttractorAt c
  first : ∀ c ∈ chain.head?, ∀ p, graph.Joins p c → ¬graph.AttractorAt p

variable {chain : List Nat}

omit hs in
theorem Chain.nodup (h : graph.Chain chain) : chain.Nodup := by
  have htrans : chain.IsChain (Relation.TransGen graph.Joins) := h.joins.imp fun _ _ ↦ .single
  refine htrans.pairwise.imp fun {a b} hab heq ↦ ?_
  rw [heq] at hab
  exact ht.acyclic b hab

/-- Every second attractor of a chain is taken in. -/
theorem Chain.taken_iff (h : graph.Chain chain) {i : Nat} (hi : i < chain.length) :
    Taken graph.foldings chain[i] ↔ i % 2 = 1 := by
  induction i with
  | zero =>
    refine iff_of_false (fun ⟨p, hp⟩ ↦ ?_) Nat.zero_ne_one
    obtain ⟨hjoins, hparent, -⟩ := (mem_foldings_iff ht hs).mp hp
    exact h.first chain[0] (by rw [List.head?_eq_getElem?, List.getElem?_eq_getElem hi]; rfl) p
      hjoins hparent
  | succ i ih =>
    have hi' : i < chain.length := Nat.lt_of_succ_lt hi
    have hjoins : graph.Joins chain[i] chain[i + 1] := List.isChain_iff_getElem.mp h.joins i hi
    rw [Graph.taken_iff ht hs hjoins, mem_foldings_iff ht hs, and_iff_right hjoins,
      and_iff_right (h.attractor _ (List.getElem_mem hi')),
      and_iff_right (h.attractor _ (List.getElem_mem hi)), ih hi']
    omega

/-- Two attractors of a chain go where the first of them is. -/
theorem Chain.home_getElem (h : graph.Chain chain) {i : Nat} (hi : i < chain.length) :
    ∃ hhalf : 2 * (i / 2) < chain.length, home graph.foldings chain[i] = chain[2 * (i / 2)] := by
  have hhalf : 2 * (i / 2) < chain.length := by omega
  refine ⟨hhalf, ?_⟩
  rcases Nat.mod_two_eq_zero_or_one i with heven | hodd
  · have hsame : 2 * (i / 2) = i := by omega
    simp only [hsame]
    exact home_eq_self fun htaken ↦ by
      rw [h.taken_iff ht hs hi, heven] at htaken
      exact Nat.zero_ne_one htaken
  · obtain ⟨k, rfl⟩ : ∃ k, i = k + 1 := ⟨i - 1, by omega⟩
    have hbefore : 2 * ((k + 1) / 2) = k := by omega
    have hjoins : graph.Joins chain[k] chain[k + 1] := List.isChain_iff_getElem.mp h.joins k hi
    simp only [hbefore]
    exact home_eq_of_mem_foldings ht hs
      ((Graph.taken_iff ht hs hjoins).mp ((h.taken_iff ht hs hi).mpr hodd))

/-- The attractors of a chain are merged in pairs. -/
theorem Chain.destination_eq_iff (h : graph.Chain chain) {i j : Nat} (hi : i < chain.length)
    (hj : j < chain.length) :
    graph.destination chain[i] = graph.destination chain[j] ↔ i / 2 = j / 2 := by
  have hnode : ∀ {c : Nat}, c ∈ chain → ∃ n ∈ graph.nodes, n.id = c := fun hc ↦
    (h.attractor _ hc).imp fun _ hn ↦ ⟨hn.1, hn.2.1⟩
  obtain ⟨hi', hhome⟩ := h.home_getElem ht hs hi
  obtain ⟨hj', hhome'⟩ := h.home_getElem ht hs hj
  rw [Graph.destination_eq_iff hs ht.toRooted (hnode (List.getElem_mem hi))
    (hnode (List.getElem_mem hj)), hhome, hhome', (h.nodup ht).getElem_inj_iff]
  omega

/-- **Chains are merged in pairs.** In a tree an attractor takes in each child that is an attractor
exactly if it has not been taken in itself, and what is merged is a node with what it takes in. So
two attractors stay joined if and only if three follow one another somewhere, and a chain of
attractors leaves a node for its first two, one for its next two, and so on. -/
theorem mergeAttractors_tree (refresh : Bool) :
    Quotient graph.destination graph (graph.mergeAttractors g refresh) ∧
    (∀ parent child, (parent, child) ∈ graph.foldings ↔ graph.Joins parent child ∧
      graph.AttractorAt parent ∧ graph.AttractorAt child ∧ ¬Taken graph.foldings parent) ∧
    (∀ n ∈ graph.nodes, ∀ m ∈ graph.nodes,
      graph.destination n.id = graph.destination m.id ↔ n.id = m.id ∨
        (n.id, m.id) ∈ graph.foldings ∨ (m.id, n.id) ∈ graph.foldings ∨
        ∃ parent, (parent, n.id) ∈ graph.foldings ∧ (parent, m.id) ∈ graph.foldings) ∧
    ((∃ a b, (graph.mergeAttractors g refresh).Joins a b ∧
        (graph.mergeAttractors g refresh).AttractorAt a ∧
        (graph.mergeAttractors g refresh).AttractorAt b) ↔
      ∃ a b c, graph.Joins a b ∧ graph.Joins b c ∧
        graph.AttractorAt a ∧ graph.AttractorAt b ∧ graph.AttractorAt c) ∧
    ∀ chain : List Nat, graph.Chain chain → ∀ (i j : Nat) (hi : i < chain.length)
      (hj : j < chain.length),
      graph.destination chain[i] = graph.destination chain[j] ↔ i / 2 = j / 2 := by
  refine ⟨quotient_destination ht.toRooted hs refresh, fun _ _ ↦ mem_foldings_iff ht hs,
    fun n hn m hm ↦ ?_, exists_joins_attractors_iff ht hs refresh,
    fun chain hchain i j hi hj ↦ hchain.destination_eq_iff ht hs hi hj⟩
  rw [destination_eq_iff hs ht.toRooted ⟨n, hn, rfl⟩ ⟨m, hm, rfl⟩, home_eq_home_iff ht hs]

omit ht hs

/-- Three attractors in a row. -/
def row : Graph bits where
  nodes := [⟨0, none, .univ, ∅, [], .initial⟩,
    ⟨1, some 3, .literal ⟨0⟩ 0, .literal ⟨1⟩ 1, [], .attractorNotFromCycle⟩,
    ⟨2, some 2, .literal ⟨0⟩ 1, .literal ⟨1⟩ 0, [], .attractorNotFromCycle⟩,
    ⟨3, some 1, .literal ⟨2⟩ 1, .literal ⟨1⟩ 0, [], .attractorNotFromCycle⟩]
  edges := [⟨0, 1, []⟩, ⟨1, 2, []⟩, ⟨2, 3, []⟩]

theorem tree_row : row.Tree where
  ascending := by decide
  ends := by
    have hends : ∀ e ∈ row.edges, (∃ n ∈ row.nodes, n.id = e.source) ∧
        (∃ n ∈ row.nodes, n.id = e.target) ∧ e.source ≠ e.target := by decide
    rintro a b ⟨e, he, rfl, rfl⟩
    exact hends e he
  root := ⟨_, List.mem_cons_self, rfl, rfl⟩
  route := by
    have hnext : ∀ a b, row.Joins a b → b = a + 1 := by
      have hedges : ∀ e ∈ row.edges, e.target = e.source + 1 := by decide
      rintro a b ⟨e, he, rfl, rfl⟩
      exact hedges e he
    have hacyclic : row.Acyclic := acyclic_of_lt fun a b hab ↦ by
      rw [hnext a b hab]
      exact Nat.lt_succ_self a
    have hone : ∀ b, row.AtMostOne initialId b := hacyclic.atMostOne
      (fun a b c hac hbc ↦ Nat.succ_injective ((hnext a c hac).symm.trans (hnext b c hbc))) _
    have h01 : row.Joins 0 1 := ⟨⟨0, 1, []⟩, by decide, rfl, rfl⟩
    have h12 : row.Joins 1 2 := ⟨⟨1, 2, []⟩, by decide, rfl, rfl⟩
    have h23 : row.Joins 2 3 := ⟨⟨2, 3, []⟩, by decide, rfl, rfl⟩
    have hexists : ∀ n ∈ row.nodes, ∃ l, row.Route initialId n.id l :=
      List.forall_mem_cons.mpr ⟨⟨_, .here⟩, List.forall_mem_cons.mpr ⟨⟨_, .single h01⟩,
        List.forall_mem_cons.mpr ⟨⟨_, (Route.single h01).step h12⟩,
          List.forall_mem_singleton.mpr ⟨_, ((Route.single h01).step h12).step h23⟩⟩⟩⟩
    intro n hn
    obtain ⟨l, hl⟩ := hexists n hn
    exact ⟨l, hl, fun l' hl' ↦ hone n.id l' l hl' hl⟩

theorem sorted_row : row.Sorted := by
  unfold Sorted
  decide

theorem chain_row : row.Chain [1, 2, 3] where
  joins := by
    have h12 : row.Joins 1 2 := ⟨⟨1, 2, []⟩, by decide, rfl, rfl⟩
    have h23 : row.Joins 2 3 := ⟨⟨2, 3, []⟩, by decide, rfl, rfl⟩
    exact .cons_cons h12 (.cons_cons h23 (.singleton 3))
  attractor := by
    have hall : ∀ c ∈ [1, 2, 3], ∃ n ∈ row.nodes, n.id = c ∧ n.kind.isAttractor = true := by decide
    exact hall
  first := by
    have hedges : ∀ e ∈ row.edges, e.target = 1 →
        ¬∃ n ∈ row.nodes, n.id = e.source ∧ n.kind.isAttractor = true := by decide
    rintro c hc p ⟨e, he, rfl, rfl⟩
    exact hedges e he (Option.some.inj hc).symm

/-- The first two of three attractors are merged, and the third stays. -/
theorem mergeAttractors_row : row.destination 1 = row.destination 2 ∧
    row.destination 2 ≠ row.destination 3 := by
  obtain ⟨-, -, -, -, hchain⟩ := mergeAttractors_tree (g := Game.turns) tree_row sorted_row false
  have hpairs := hchain [1, 2, 3] chain_row
  refine ⟨(hpairs 0 1 (by decide) (by decide)).mpr (by decide), fun heq ↦ ?_⟩
  exact absurd ((hpairs 1 2 (by decide) (by decide)).mp heq) (by decide)

/-- **Attractors of a tree may stay joined**: the third of a row is not taken in. -/
theorem not_forall_not_joins_attractors : ¬∀ graph : Graph bits, graph.Tree → graph.Sorted →
    ∀ a b, (graph.mergeAttractors Game.turns false).Joins a b →
      ¬((graph.mergeAttractors Game.turns false).AttractorAt a ∧
        (graph.mergeAttractors Game.turns false).AttractorAt b) := by
  intro hall
  have hjoins : ∃ e ∈ (row.mergeAttractors Game.turns false).edges,
      e.source = 1 ∧ e.target = 2 := by decide +kernel
  have hkind : ∀ c ∈ [1, 2], ∃ n ∈ (row.mergeAttractors Game.turns false).nodes,
      n.id = c ∧ n.kind.isAttractor = true := by decide +kernel
  exact hall row tree_row sorted_row 1 2 hjoins
    ⟨hkind 1 List.mem_cons_self, hkind 2 (List.mem_cons_of_mem _ List.mem_cons_self)⟩

end JusticeViolation.Graph

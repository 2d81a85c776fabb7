import JusticeViolation.Graph.Merge
import JusticeViolation.Proofs.Graph.Basic
import JusticeViolation.Proofs.StateSet.Membership

/-!
# Quotients of graphs

Folding one node into another identifies the two. What is left is a quotient: every node of the new
graph stands for a class of old ones. It holds their states and transitions, the facts that all of
them share, and the kind and rank of one of them. Two classes are joined if and only if some of
their members are. Numbering nodes through and finding the facts of edges anew are quotients that
identify nothing, and quotients compose.

None of this takes more of a graph than that its nodes are listed by ascending numbers and that its
edges join different nodes, with an initial node among them.
-/

namespace JusticeViolation.Graph

variable {sp : Space} {g : Game sp} {graph graph' graph'' : Graph sp}

/-! ## Rooted graphs -/

/-- A simple graph with the initial node. -/
structure Rooted (graph : Graph sp) : Prop extends Simple graph where
  root : ∃ n ∈ graph.nodes, n.id = initialId ∧ n.kind = .initial

theorem WellFormed.rooted (h : graph.WellFormed) : graph.Rooted where
  toSimple := h.simple
  root := by
    obtain ⟨n, hn, h0⟩ := h.root
    exact ⟨n, hn, h0, (h.initial_iff n hn).mpr h0⟩

/-! ## Quotients -/

/-- The nodes of `graph'` are the classes of nodes of `graph` with the same number under `f`. -/
structure Quotient (f : Nat → Nat) (graph graph' : Graph sp) : Prop where
  root : f initialId = initialId
  exists_node : ∀ n ∈ graph.nodes, ∃ n' ∈ graph'.nodes, n'.id = f n.id
  mem_states : ∀ n' ∈ graph'.nodes, ∀ i,
    i ∈ n'.states ↔ ∃ n ∈ graph.nodes, f n.id = n'.id ∧ i ∈ n.states
  mem_transitions : ∀ n' ∈ graph'.nodes, ∀ v,
    v ∈ n'.transitions ↔ ∃ n ∈ graph.nodes, f n.id = n'.id ∧ v ∈ n.transitions
  /-- Kind and rank are those of one member; of its facts those are left that all members share. -/
  exists_member : ∀ n' ∈ graph'.nodes, ∃ n ∈ graph.nodes, f n.id = n'.id ∧
    n'.rank = n.rank ∧ n'.body = n.body ∧ n'.facts = n.facts.filter fun fact ↦
      decide (∀ m ∈ graph.nodes, f m.id = n'.id → fact ∈ m.facts)
  /-- Only attractors are identified. -/
  isAttractor : ∀ n ∈ graph.nodes, ∀ m ∈ graph.nodes, f n.id = f m.id → n.id ≠ m.id →
    n.kind.isAttractor = true
  joins : ∀ a b, graph'.Joins a b ↔
    a ≠ b ∧ ∃ a' b', graph.Joins a' b' ∧ f a' = a ∧ f b' = b

namespace Quotient

variable {f f' : Nat → Nat}

/-- The facts of a class are those that all its members share. -/
theorem mem_facts (h : Quotient f graph graph') {n' : Node sp} (hn' : n' ∈ graph'.nodes)
    (fact : Fact) :
    fact ∈ n'.facts ↔ ∀ n ∈ graph.nodes, f n.id = n'.id → fact ∈ n.facts := by
  obtain ⟨n, hn, hid, -, -, hfacts⟩ := h.exists_member n' hn'
  rw [hfacts, List.mem_filter, decide_eq_true_iff, and_iff_right_iff_imp]
  exact fun hall ↦ hall n hn hid

/-- A node that is no attractor is alone in its class. -/
theorem id_eq_of_not_isAttractor (h : Quotient f graph graph') {n m : Node sp}
    (hn : n ∈ graph.nodes) (hm : m ∈ graph.nodes) (hkind : n.kind.isAttractor = false)
    (hnm : f n.id = f m.id) : n.id = m.id := by
  by_contra hne
  rw [h.isAttractor n hn m hm hnm hne] at hkind
  simp at hkind

/-- Only the initial node goes to the initial node. -/
theorem eq_initialId_iff (h : Quotient f graph graph') (hr : graph.Rooted) {n : Node sp}
    (hn : n ∈ graph.nodes) : f n.id = initialId ↔ n.id = initialId := by
  obtain ⟨r, hr, hr0, hkind⟩ := hr.root
  constructor
  · intro h0
    have hrn : f r.id = f n.id := by rw [hr0, h.root, h0]
    rw [← h.id_eq_of_not_isAttractor hr hn (by rw [hkind]; rfl) hrn, hr0]
  · exact fun h0 ↦ h0 ▸ h.root

theorem reaches (h : Quotient f graph graph') {a b : Nat} (hab : graph.Reaches a b) :
    graph'.Reaches (f a) (f b) :=
  hab.map fun a b hjoins hne ↦ (h.joins _ _).mpr ⟨hne, a, b, hjoins, rfl, rfl⟩

private theorem exists_part_iff (h : Quotient f graph graph') (part : Node sp → StateSet sp)
    (hpart : ∀ n' ∈ graph'.nodes, ∀ i,
      i ∈ part n' ↔ ∃ n ∈ graph.nodes, f n.id = n'.id ∧ i ∈ part n) (id i : Nat) :
    (∃ n' ∈ graph'.nodes, f' n'.id = id ∧ i ∈ part n') ↔
      ∃ n ∈ graph.nodes, f' (f n.id) = id ∧ i ∈ part n := by
  constructor
  · rintro ⟨n', hn', hid', hi⟩
    obtain ⟨n, hn, hid, hi⟩ := (hpart n' hn' i).mp hi
    exact ⟨n, hn, by rw [hid, hid'], hi⟩
  · rintro ⟨n, hn, hid, hi⟩
    obtain ⟨n', hn', hid'⟩ := h.exists_node n hn
    exact ⟨n', hn', by rw [hid', hid], (hpart n' hn' i).mpr ⟨n, hn, hid'.symm, hi⟩⟩

private theorem forall_facts_iff (h : Quotient f graph graph') (id : Nat) (fact : Fact) :
    (∀ n' ∈ graph'.nodes, f' n'.id = id → fact ∈ n'.facts) ↔
      ∀ n ∈ graph.nodes, f' (f n.id) = id → fact ∈ n.facts := by
  constructor
  · intro hall n hn hid
    obtain ⟨n', hn', hid'⟩ := h.exists_node n hn
    exact (h.mem_facts hn' fact).mp (hall n' hn' (by rw [hid', hid])) n hn hid'.symm
  · intro hall n' hn' hid'
    exact (h.mem_facts hn' fact).mpr fun n hn hid ↦ hall n hn (by rw [hid, hid'])

/-- **Quotients compose.** -/
theorem trans (hs : graph.Simple) (h : Quotient f graph graph')
    (h' : Quotient f' graph' graph'') : Quotient (fun id ↦ f' (f id)) graph graph'' where
  root := by rw [h.root, h'.root]
  exists_node := by
    intro n hn
    obtain ⟨n', hn', hid⟩ := h.exists_node n hn
    obtain ⟨n'', hn'', hid'⟩ := h'.exists_node n' hn'
    exact ⟨n'', hn'', by rw [hid', hid]⟩
  mem_states := fun n'' hn'' i ↦
    (h'.mem_states n'' hn'' i).trans (h.exists_part_iff (·.states) h.mem_states n''.id i)
  mem_transitions := fun n'' hn'' v ↦
    (h'.mem_transitions n'' hn'' v).trans
      (h.exists_part_iff (·.transitions) h.mem_transitions n''.id v)
  exists_member := by
    intro n'' hn''
    obtain ⟨n', hn', hid', hrank', hbody', hfacts'⟩ := h'.exists_member n'' hn''
    obtain ⟨n, hn, hid, hrank, hbody, hfacts⟩ := h.exists_member n' hn'
    refine ⟨n, hn, by rw [hid, hid'], hrank'.trans hrank, hbody'.trans hbody, ?_⟩
    rw [hfacts', hfacts, List.filter_filter]
    refine List.filter_congr fun fact _ ↦ ?_
    rw [← Bool.decide_and]
    refine decide_eq_decide.mpr ?_
    rw [h.forall_facts_iff]
    exact and_iff_left_of_imp fun hall m hm hmn ↦ hall m hm (by rw [hmn, hid'])
  isAttractor := by
    intro n hn m hm hnm hne
    by_cases hsame : f n.id = f m.id
    · exact h.isAttractor n hn m hm hsame hne
    · -- the classes of both nodes are identified, and `n` has the kind of its class or is not alone
      obtain ⟨n', hn', hidn⟩ := h.exists_node n hn
      obtain ⟨m', hm', hidm⟩ := h.exists_node m hm
      have hattr : n'.kind.isAttractor = true :=
        h'.isAttractor n' hn' m' hm' (by rw [hidn, hidm, hnm]) (by rwa [hidn, hidm])
      obtain ⟨k, hk, hkn, -, hbody, -⟩ := h.exists_member n' hn'
      by_cases heq : n.id = k.id
      · rw [hs.eq_of_id_eq hn hk heq, Node.kind, ← hbody]
        exact hattr
      · exact h.isAttractor n hn k hk (by rw [hkn, hidn]) heq
  joins := by
    intro a b
    rw [h'.joins]
    refine and_congr_right fun hne ↦ ?_
    constructor
    · rintro ⟨a', b', hab', rfl, rfl⟩
      obtain ⟨-, a₀, b₀, hab, rfl, rfl⟩ := (h.joins a' b').mp hab'
      exact ⟨a₀, b₀, hab, rfl, rfl⟩
    · rintro ⟨a₀, b₀, hab, rfl, rfl⟩
      exact ⟨f a₀, f b₀, (h.joins _ _).mpr
        ⟨fun heq ↦ hne (congrArg f' heq), a₀, b₀, hab, rfl, rfl⟩, rfl, rfl⟩

/-- A quotient that lists its nodes by ascending numbers is simple again, with the initial node. -/
theorem rooted (h : Quotient f graph graph') (hr : graph.Rooted)
    (hasc : graph'.nodes.Pairwise fun n m ↦ n.id < m.id) : graph'.Rooted where
  ascending := hasc
  ends := by
    intro a b hab
    obtain ⟨hne, a', b', hab', rfl, rfl⟩ := (h.joins a b).mp hab
    obtain ⟨⟨n, hn, rfl⟩, ⟨m, hm, rfl⟩, -⟩ := hr.ends a' b' hab'
    exact ⟨h.exists_node n hn, h.exists_node m hm, hne⟩
  root := by
    obtain ⟨r, hroot, hr0, hkind⟩ := hr.root
    obtain ⟨r', hr', hid⟩ := h.exists_node r hroot
    rw [hr0, h.root] at hid
    obtain ⟨n, hn, hnr, -, hbody, -⟩ := h.exists_member r' hr'
    have hn0 : n.id = initialId := (h.eq_initialId_iff hr hn).mp (hnr.trans hid)
    obtain rfl : n = r := hr.eq_of_id_eq hn hroot (hn0.trans hr0.symm)
    exact ⟨r', hr', hid, by rw [Node.kind, hbody]; exact hkind⟩

/-- The initial node of a well-formed graph stays the only one of its kind. -/
theorem wellFormed (h : Quotient f graph graph') (hwf : graph.WellFormed)
    (hasc : graph'.nodes.Pairwise fun n m ↦ n.id < m.id) : graph'.WellFormed where
  ascending := hasc
  ends := (h.rooted hwf.rooted hasc).ends
  root := by
    obtain ⟨r', hr', h0, -⟩ := (h.rooted hwf.rooted hasc).root
    exact ⟨r', hr', h0⟩
  initial_iff := by
    intro n' hn'
    obtain ⟨n, hn, hid, -, hbody, -⟩ := h.exists_member n' hn'
    rw [Node.kind, hbody, ← Node.kind, hwf.initial_iff n hn, ← hid]
    exact (h.eq_initialId_iff hwf.rooted hn).symm

end Quotient

/-! ## Renaming nodes -/

section Rename

variable {f : Nat → Nat} (hs : graph.Simple)
  (hinj : ∀ n ∈ graph.nodes, ∀ m ∈ graph.nodes, f n.id = f m.id → n.id = m.id)

include hs hinj

private theorem eq_of_rename {n m : Node sp} (hn : n ∈ graph.nodes) (hm : m ∈ graph.nodes)
    (h : f n.id = f m.id) : n = m := hs.eq_of_id_eq hn hm (hinj n hn m hm h)

/-- New numbers for the nodes, different for different nodes, make a quotient. -/
theorem quotient_rename (hroot : f initialId = initialId)
    (hnodes : graph'.nodes = graph.nodes.map fun n ↦ { n with id := f n.id })
    (hjoins : ∀ a b, graph'.Joins a b ↔ ∃ a' b', graph.Joins a' b' ∧ f a' = a ∧ f b' = b) :
    Quotient f graph graph' where
  root := hroot
  exists_node := by
    intro n hn
    rw [hnodes]
    exact ⟨_, List.mem_map_of_mem hn, rfl⟩
  mem_states := by
    intro n' hn' i
    rw [hnodes] at hn'
    obtain ⟨n, hn, rfl⟩ := List.mem_map.mp hn'
    refine ⟨fun hi ↦ ⟨n, hn, rfl, hi⟩, fun ⟨m, hm, hmn, hi⟩ ↦ ?_⟩
    rwa [eq_of_rename hs hinj hm hn hmn] at hi
  mem_transitions := by
    intro n' hn' v
    rw [hnodes] at hn'
    obtain ⟨n, hn, rfl⟩ := List.mem_map.mp hn'
    refine ⟨fun hv ↦ ⟨n, hn, rfl, hv⟩, fun ⟨m, hm, hmn, hv⟩ ↦ ?_⟩
    rwa [eq_of_rename hs hinj hm hn hmn] at hv
  exists_member := by
    intro n' hn'
    rw [hnodes] at hn'
    obtain ⟨n, hn, rfl⟩ := List.mem_map.mp hn'
    refine ⟨n, hn, rfl, rfl, rfl, (List.filter_eq_self.mpr fun fact hfact ↦ ?_).symm⟩
    refine decide_eq_true fun m hm hmn ↦ ?_
    rwa [eq_of_rename hs hinj hm hn hmn]
  isAttractor := fun n hn m hm hnm hne ↦ absurd (hinj n hn m hm hnm) hne
  joins := by
    intro a b
    rw [hjoins, iff_and_self]
    rintro ⟨a', b', hab, rfl, rfl⟩
    obtain ⟨⟨n, hn, rfl⟩, ⟨m, hm, rfl⟩, hne⟩ := hs.ends a' b' hab
    exact fun heq ↦ hne (hinj n hn m hm heq)

end Rename

/-- A graph with the same nodes and edges, facts of edges aside, is a quotient. -/
theorem quotient_of_nodes_eq (hs : graph.Simple) (hnodes : graph'.nodes = graph.nodes)
    (hjoins : ∀ a b, graph'.Joins a b ↔ graph.Joins a b) : Quotient id graph graph' := by
  refine quotient_rename hs (fun _ _ _ _ h ↦ h) rfl (by rw [hnodes]; exact (List.map_id _).symm)
    fun a b ↦ ?_
  rw [hjoins]
  constructor
  · exact fun hab ↦ ⟨a, b, hab, rfl, rfl⟩
  · rintro ⟨a', b', hab, rfl, rfl⟩
    exact hab

theorem Quotient.refl (hs : graph.Simple) : Quotient id graph graph :=
  quotient_of_nodes_eq hs rfl fun _ _ ↦ Iff.rfl

theorem joins_annotateEdges {touched : Nat → Nat → Bool} {a b : Nat} :
    (graph.annotateEdges g touched).Joins a b ↔ graph.Joins a b := by
  unfold Joins annotateEdges
  constructor
  · rintro ⟨e, he, rfl, rfl⟩
    obtain ⟨f, hf, rfl⟩ := List.mem_map.mp he
    refine ⟨f, hf, ?_⟩
    split
    · exact ⟨rfl, rfl⟩
    · exact ⟨rfl, rfl⟩
  · rintro ⟨e, he, rfl, rfl⟩
    refine ⟨_, List.mem_map_of_mem he, ?_⟩
    split
    · exact ⟨rfl, rfl⟩
    · exact ⟨rfl, rfl⟩

/-! ## Numbering through -/

/-- The position of a number among the nodes. -/
def position (graph : Graph sp) (id : Nat) : Nat :=
  (graph.nodes.findIdx? (·.id == id)).getD id

theorem position_congr (h : graph'.nodes = graph.nodes) : graph'.position = graph.position := by
  unfold position
  rw [h]

private theorem position_eq (hs : graph.Simple) {k : Nat} (hk : k < graph.nodes.length) :
    graph.position graph.nodes[k].id = k := by
  have hfind : graph.nodes.findIdx? (·.id == graph.nodes[k].id) = some k := by
    rw [List.findIdx?_eq_some_iff_getElem]
    refine ⟨hk, beq_self_eq_true _, fun j hj ↦ ?_⟩
    have hlt := List.pairwise_iff_getElem.mp hs.ascending j k (by omega) hk hj
    rw [beq_iff_eq]
    exact Nat.ne_of_lt hlt
  rw [position, hfind, Option.getD_some]

/-- Different nodes have different positions. -/
theorem position_inj (hs : graph.Simple) {n m : Node sp} (hn : n ∈ graph.nodes)
    (hm : m ∈ graph.nodes) (h : graph.position n.id = graph.position m.id) : n.id = m.id := by
  obtain ⟨j, hj, rfl⟩ := List.getElem_of_mem hn
  obtain ⟨k, hk, rfl⟩ := List.getElem_of_mem hm
  rw [position_eq hs hj, position_eq hs hk] at h
  subst h
  rfl

/-- **Numbering through** leaves the numbers from 0 on. -/
theorem ids_renumber (hs : graph.Simple) :
    graph.renumber.nodes.map (·.id) = List.range graph.nodes.length := by
  refine List.ext_getElem ?_ fun k hk hk' ↦ ?_
  · rw [List.length_map, List.length_range]
    exact List.length_map _
  · rw [List.getElem_map, List.getElem_range]
    have hk'' : k < graph.nodes.length := by rwa [List.length_range] at hk'
    simp only [renumber, List.getElem_map]
    exact position_eq hs hk''

theorem joins_renumber {a b : Nat} : graph.renumber.Joins a b ↔
    ∃ a' b', graph.Joins a' b' ∧ graph.position a' = a ∧ graph.position b' = b := by
  constructor
  · rintro ⟨e, he, rfl, rfl⟩
    obtain ⟨d, hd, rfl⟩ := List.mem_map.mp he
    exact ⟨d.source, d.target, ⟨d, hd, rfl, rfl⟩, rfl, rfl⟩
  · rintro ⟨a', b', ⟨e, he, rfl, rfl⟩, rfl, rfl⟩
    exact ⟨_, List.mem_map_of_mem he, rfl, rfl⟩

theorem quotient_renumber (hr : graph.Rooted) :
    Quotient graph.position graph graph.renumber := by
  refine quotient_rename hr.toSimple (fun _ hn _ hm ↦ position_inj hr.toSimple hn hm) ?_ rfl
    fun a b ↦ ?_
  · obtain ⟨n, hn, hn0, -⟩ := hr.root
    obtain ⟨k, hk, rfl⟩ := List.getElem_of_mem hn
    rw [← hn0, position_eq hr.toSimple hk, hn0]
    -- no number is below that of the initial node
    rcases Nat.eq_zero_or_pos k with hzero | hpos
    · exact hzero
    · have hlt := List.pairwise_iff_getElem.mp hr.ascending 0 k (by omega) hk hpos
      rw [hn0] at hlt
      exact absurd hlt (Nat.not_lt_zero _)
  · exact joins_renumber

/-! ## Folding one node into another -/

section Absorb

variable {parent child : Nat}

/-- Where a node goes when `child` is folded into `parent`. -/
def foldInto (parent child id : Nat) : Nat := if id = child then parent else id

private theorem joins_mergeFold {es : List Edge} {a b : Nat} :
    (es.foldl (fun rest e ↦ rest.mergeEdge (reroute parent child e)) graph).Joins a b ↔
      graph.Joins a b ∨ ∃ e ∈ es,
        (reroute parent child e).source ≠ (reroute parent child e).target ∧
        (reroute parent child e).source = a ∧ (reroute parent child e).target = b := by
  induction es generalizing graph with
  | nil => exact (or_iff_left fun ⟨_, he, _⟩ ↦ List.not_mem_nil he).symm
  | cons e es ih =>
    rw [List.foldl_cons, ih, joins_mergeEdge]
    simp only [List.mem_cons, exists_eq_or_imp, or_assoc]

private theorem nodes_mergeFold (es : List Edge) (rest : Graph sp) :
    (es.foldl (fun rest e ↦ rest.mergeEdge (reroute parent child e)) rest).nodes = rest.nodes := by
  induction es generalizing rest with
  | nil => rfl
  | cons e es ih => rw [List.foldl_cons, ih, nodes_mergeEdge]

private theorem reroute_ends (parent : Nat) {e : Edge} (hne : e.source ≠ e.target)
    (he : e.touches child) :
    (reroute parent child e).source = foldInto parent child e.source ∧
      (reroute parent child e).target = foldInto parent child e.target := by
  rw [Edge.touches, Bool.or_eq_true, beq_iff_eq, beq_iff_eq] at he
  unfold reroute foldInto
  split
  · rename_i hs
    exact ⟨rfl, (if_neg fun ht ↦ hne (hs.trans ht.symm)).symm⟩
  · rename_i hs
    exact ⟨rfl, (if_pos (he.resolve_left hs)).symm⟩

private theorem nodes_absorb (hs : graph.Simple) {m : Node sp} (hm : m ∈ graph.nodes) :
    (graph.absorb parent m.id).nodes = (graph.nodes.filter (·.id != m.id)).map fun n ↦
      if n.id = parent then unite n m else n := by
  unfold absorb
  rw [hs.node?_eq_some hm]
  exact nodes_mergeFold _ _

private theorem joins_absorb (hs : graph.Simple) {m : Node sp} (hm : m ∈ graph.nodes)
    {a b : Nat} : (graph.absorb parent m.id).Joins a b ↔ a ≠ b ∧
      ∃ a' b', graph.Joins a' b' ∧ foldInto parent m.id a' = a ∧ foldInto parent m.id b' = b := by
  unfold absorb
  rw [hs.node?_eq_some hm]
  dsimp only
  rw [joins_mergeFold]
  have hrest : ∀ {a b : Nat}, (((graph.removeNode m.id).mapNodes fun n ↦
      if n.id = parent then unite n m else n).Joins a b ↔
        ∃ e ∈ graph.edges, e.touches m.id = false ∧ e.source = a ∧ e.target = b) := by
    intro a b
    unfold Joins mapNodes removeNode
    simp only [List.mem_filter, Bool.not_eq_true', and_assoc]
  rw [hrest]
  have hstay : ∀ {e : Edge}, e.touches m.id = false → foldInto parent m.id e.source = e.source ∧
      foldInto parent m.id e.target = e.target := fun he ↦ by
    rw [Edge.touches, Bool.or_eq_false_iff, beq_eq_false_iff_ne, beq_eq_false_iff_ne] at he
    exact ⟨if_neg he.1, if_neg he.2⟩
  constructor
  · rintro (⟨e, he, htouch, rfl, rfl⟩ | ⟨e, he, hne, rfl, rfl⟩)
    · have hjoin : graph.Joins e.source e.target := ⟨e, he, rfl, rfl⟩
      exact ⟨(hs.ends _ _ hjoin).2.2, e.source, e.target, hjoin, hstay htouch⟩
    · obtain ⟨hmem, htouch⟩ := List.mem_filter.mp he
      have hjoin : graph.Joins e.source e.target := ⟨e, hmem, rfl, rfl⟩
      obtain ⟨hsource, htarget⟩ := reroute_ends parent (hs.ends _ _ hjoin).2.2 htouch
      exact ⟨hne, e.source, e.target, hjoin, hsource.symm, htarget.symm⟩
  · rintro ⟨hne, a', b', ⟨e, he, rfl, rfl⟩, rfl, rfl⟩
    cases htouch : e.touches m.id with
    | false =>
      obtain ⟨hsource, htarget⟩ := hstay htouch
      exact Or.inl ⟨e, he, htouch, hsource.symm, htarget.symm⟩
    | true =>
      obtain ⟨hsource, htarget⟩ :=
        reroute_ends parent (hs.ends _ _ ⟨e, he, rfl, rfl⟩).2.2 htouch
      refine Or.inr ⟨e, List.mem_filter.mpr ⟨he, htouch⟩, ?_, hsource, htarget⟩
      rwa [hsource, htarget]

variable {n m : Node sp} (hs : graph.Simple) (hn : n ∈ graph.nodes) (hm : m ∈ graph.nodes)
  (hnm : n.id ≠ m.id)

include hs hm

theorem ascending_absorb : (graph.absorb parent m.id).nodes.Pairwise fun n m ↦ n.id < m.id := by
  rw [nodes_absorb hs hm, List.pairwise_map]
  refine (hs.ascending.filter _).imp fun {k l} hlt ↦ ?_
  have hid : ∀ k : Node sp, (if k.id = parent then unite k m else k).id = k.id := fun k ↦ by
    split <;> rfl
  rwa [hid, hid]

/-- One node disappears. -/
theorem length_absorb : (graph.absorb parent m.id).nodes.length + 1 = graph.nodes.length := by
  rw [nodes_absorb hs hm, List.length_map]
  obtain ⟨front, behind, heq⟩ := List.append_of_mem hm
  have hnd := hs.nodup_ids
  rw [heq, List.map_append, List.map_cons, List.nodup_append, List.nodup_cons] at hnd
  have hkeep : ∀ ns : List (Node sp), m.id ∉ ns.map (·.id) → ns.filter (·.id != m.id) = ns :=
    fun ns hns ↦ List.filter_eq_self.mpr fun k hk ↦
      bne_iff_ne.mpr fun hid ↦ hns (List.mem_map.mpr ⟨k, hk, hid⟩)
  rw [heq, List.filter_append, List.filter_cons_of_neg (by simp), hkeep front, hkeep behind]
  · simp only [List.length_append, List.length_cons]
    omega
  · exact hnd.2.1.1
  · exact fun hmem ↦ hnd.2.2 _ hmem _ List.mem_cons_self rfl

include hn hnm

theorem mem_nodes_absorb {k' : Node sp} :
    k' ∈ (graph.absorb n.id m.id).nodes ↔
      k' = unite n m ∨ k' ∈ graph.nodes ∧ k'.id ≠ m.id ∧ k'.id ≠ n.id := by
  rw [nodes_absorb hs hm, List.mem_map]
  constructor
  · rintro ⟨k, hk, rfl⟩
    obtain ⟨hk, hkm⟩ := List.mem_filter.mp hk
    rw [bne_iff_ne] at hkm
    split
    · rename_i hkn
      rw [hs.eq_of_id_eq hk hn hkn]
      exact Or.inl rfl
    · rename_i hkn
      exact Or.inr ⟨hk, hkm, hkn⟩
  · rintro (rfl | ⟨hk, hkm, hkn⟩)
    · exact ⟨n, List.mem_filter.mpr ⟨hn, by rwa [bne_iff_ne]⟩, if_pos rfl⟩
    · exact ⟨k', List.mem_filter.mpr ⟨hk, by rwa [bne_iff_ne]⟩, if_neg hkn⟩

omit hnm in
private theorem foldInto_eq_parent {k : Node sp} (hk : k ∈ graph.nodes) :
    foldInto n.id m.id k.id = n.id ↔ k = n ∨ k = m := by
  unfold foldInto
  split
  · rename_i hkm
    exact iff_of_true rfl (Or.inr (hs.eq_of_id_eq hk hm hkm))
  · rename_i hkm
    constructor
    · exact fun hkn ↦ Or.inl (hs.eq_of_id_eq hk hn hkn)
    · rintro (rfl | rfl)
      · rfl
      · exact absurd rfl hkm

omit hn hm hnm in
private theorem foldInto_eq_other {k k' : Node sp} (hk : k ∈ graph.nodes) (hk' : k' ∈ graph.nodes)
    (hkm : k'.id ≠ m.id) (hkn : k'.id ≠ n.id) : foldInto n.id m.id k.id = k'.id ↔ k = k' := by
  unfold foldInto
  split
  · rename_i heq
    refine iff_of_false (Ne.symm hkn) ?_
    rintro rfl
    exact hkm heq
  · exact ⟨fun heq ↦ hs.eq_of_id_eq hk hk' heq, fun heq ↦ congrArg _ heq⟩

/-- What two nodes hold is united; the others hold what they held. -/
private theorem mem_part_absorb (part : Node sp → StateSet sp)
    (hunite : part (unite n m) = part n ∪ part m) {k' : Node sp}
    (hk' : k' ∈ (graph.absorb n.id m.id).nodes) (i : Nat) :
    i ∈ part k' ↔ ∃ k ∈ graph.nodes, foldInto n.id m.id k.id = k'.id ∧ i ∈ part k := by
  rcases (mem_nodes_absorb hs hn hm hnm).mp hk' with rfl | ⟨hk', hkm, hkn⟩
  · rw [hunite, StateSet.mem_union]
    constructor
    · rintro (hi | hi)
      · exact ⟨n, hn, (foldInto_eq_parent hs hn hm hn).mpr (Or.inl rfl), hi⟩
      · exact ⟨m, hm, (foldInto_eq_parent hs hn hm hm).mpr (Or.inr rfl), hi⟩
    · rintro ⟨k, hk, hkf, hi⟩
      rcases (foldInto_eq_parent hs hn hm hk).mp hkf with rfl | rfl
      · exact Or.inl hi
      · exact Or.inr hi
  · constructor
    · exact fun hi ↦ ⟨k', hk', (foldInto_eq_other hs hk' hk' hkm hkn).mpr rfl, hi⟩
    · rintro ⟨k, hk, hkf, hi⟩
      rwa [(foldInto_eq_other hs hk hk' hkm hkn).mp hkf] at hi

omit hs in
/-- **Folding an attractor into another** identifies the two. -/
theorem quotient_absorb (hr : graph.Rooted) (hkind : n.kind.isAttractor = true)
    (hkind' : m.kind.isAttractor = true) :
    Quotient (foldInto n.id m.id) graph (graph.absorb n.id m.id) where
  root := by
    obtain ⟨r, hroot, hr0, hkr⟩ := hr.root
    refine if_neg fun h0 ↦ ?_
    rw [← hr.eq_of_id_eq hroot hm (hr0.trans h0), hkr] at hkind'
    cases hkind'
  exists_node := by
    intro k hk
    by_cases hkf : foldInto n.id m.id k.id = n.id
    · exact ⟨unite n m, (mem_nodes_absorb hr.toSimple hn hm hnm).mpr (Or.inl rfl), hkf.symm⟩
    · have hkn : k.id ≠ n.id := fun heq ↦ hkf ((foldInto_eq_parent hr.toSimple hn hm hk).mpr
        (Or.inl (hr.eq_of_id_eq hk hn heq)))
      have hkm : k.id ≠ m.id := fun heq ↦ hkf ((foldInto_eq_parent hr.toSimple hn hm hk).mpr
        (Or.inr (hr.eq_of_id_eq hk hm heq)))
      exact ⟨k, (mem_nodes_absorb hr.toSimple hn hm hnm).mpr (Or.inr ⟨hk, hkm, hkn⟩),
        (if_neg hkm).symm⟩
  mem_states := fun _ hk' i ↦ mem_part_absorb hr.toSimple hn hm hnm (·.states) rfl hk' i
  mem_transitions := fun _ hk' v ↦
    mem_part_absorb hr.toSimple hn hm hnm (·.transitions) rfl hk' v
  exists_member := by
    intro k' hk'
    rcases (mem_nodes_absorb hr.toSimple hn hm hnm).mp hk' with rfl | ⟨hk', hkm, hkn⟩
    · refine ⟨n, hn, if_neg hnm, rfl, rfl, List.filter_congr fun fact hfact ↦ ?_⟩
      rw [List.contains_eq_mem, decide_eq_decide]
      constructor
      · intro hfact' k hk hkf
        rcases (foldInto_eq_parent hr.toSimple hn hm hk).mp hkf with rfl | rfl
        · exact hfact
        · exact hfact'
      · exact fun hall ↦ hall m hm
          ((foldInto_eq_parent hr.toSimple hn hm hm).mpr (Or.inr rfl))
    · refine ⟨k', hk', if_neg hkm, rfl, rfl, (List.filter_eq_self.mpr fun fact hfact ↦ ?_).symm⟩
      refine decide_eq_true fun k hk hkf ↦ ?_
      rwa [(foldInto_eq_other hr.toSimple hk hk' hkm hkn).mp hkf]
  isAttractor := by
    intro k hk l hl hkl hne
    unfold foldInto at hkl
    split at hkl
    · rename_i hkm
      rwa [hr.eq_of_id_eq hk hm hkm]
    · split at hkl
      · rwa [hr.eq_of_id_eq hk hn hkl]
      · exact absurd hkl hne
  joins := fun a b ↦ joins_absorb hr.toSimple hm

end Absorb

end JusticeViolation.Graph

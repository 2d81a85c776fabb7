import JusticeViolation.Decomposition
import Mathlib.Data.List.Nodup
import Mathlib.Logic.Relation

/-!
# Graphs and their edges

`Joins a b` says that there is an edge from `a` to `b`, and `Reaches a b` that edges lead from `a`
to `b`. Facts aside, a change of the edges is described by what it joins. A well-formed graph lists
its nodes by ascending numbers, has one initial node, numbered 0, and its edges join different nodes
of the graph.
-/

namespace JusticeViolation.Graph

variable {sp : Space} {graph : Graph sp}

/-- Fewer members have a property that implies another, if some member has the other alone. -/
theorem countP_lt_countP {α : Type} {p q : α → Bool} {as : List α} {a : α}
    (hle : ∀ b ∈ as, p b = true → q b = true) (ha : a ∈ as) (hp : ¬p a = true)
    (hq : q a = true) : as.countP p < as.countP q := by
  obtain ⟨front, behind, rfl⟩ := List.append_of_mem ha
  have hfront : front.countP p ≤ front.countP q :=
    List.countP_mono_left fun b hb ↦ hle b (List.mem_append_left _ hb)
  have hbehind : behind.countP p ≤ behind.countP q :=
    List.countP_mono_left fun b hb ↦ hle b (List.mem_append_right _ (List.mem_cons_of_mem a hb))
  rw [List.countP_append, List.countP_append, List.countP_cons_of_neg hp,
    List.countP_cons_of_pos hq]
  omega

/-- There is an edge from one number to another. -/
def Joins (graph : Graph sp) (a b : Nat) : Prop :=
  ∃ e ∈ graph.edges, e.source = a ∧ e.target = b

theorem mem_children {a b : Nat} : b ∈ graph.children a ↔ graph.Joins a b := by
  rw [children, List.mem_map]
  constructor
  · rintro ⟨e, he, rfl⟩
    obtain ⟨hmem, hsource⟩ := List.mem_filter.mp he
    exact ⟨e, hmem, beq_iff_eq.mp hsource, rfl⟩
  · rintro ⟨e, he, rfl, rfl⟩
    exact ⟨e, List.mem_filter.mpr ⟨he, beq_self_eq_true _⟩, rfl⟩

theorem mem_parents {a b : Nat} : a ∈ graph.parents b ↔ graph.Joins a b := by
  rw [parents, List.mem_map]
  constructor
  · rintro ⟨e, he, rfl⟩
    obtain ⟨hmem, htarget⟩ := List.mem_filter.mp he
    exact ⟨e, hmem, rfl, beq_iff_eq.mp htarget⟩
  · rintro ⟨e, he, rfl, rfl⟩
    exact ⟨e, List.mem_filter.mpr ⟨he, beq_self_eq_true _⟩, rfl⟩

theorem hasEdge_iff {a b : Nat} : graph.hasEdge a b = true ↔ graph.Joins a b := by
  rw [hasEdge, List.any_eq_true]
  refine exists_congr fun e ↦ and_congr_right fun _ ↦ ?_
  rw [Bool.and_eq_true, beq_iff_eq, beq_iff_eq]

instance (a b : Nat) : Decidable (graph.Joins a b) := decidable_of_iff _ hasEdge_iff

/-- Edges lead from one number to another. -/
def Reaches (graph : Graph sp) : Nat → Nat → Prop := Relation.ReflTransGen graph.Joins

theorem Reaches.mono {graph' : Graph sp} (hjoins : ∀ a b, graph.Joins a b → graph'.Joins a b)
    {a b : Nat} (h : graph.Reaches a b) : graph'.Reaches a b :=
  Relation.ReflTransGen.mono hjoins a b h

/-- What is reached stays reached where edges become edges or shrink to a node. -/
theorem Reaches.map {graph' : Graph sp} {f : Nat → Nat}
    (hjoins : ∀ a b, graph.Joins a b → f a ≠ f b → graph'.Joins (f a) (f b)) {a b : Nat}
    (h : graph.Reaches a b) : graph'.Reaches (f a) (f b) := by
  induction h with
  | refl => exact .refl
  | @tail b c _ hbc ih =>
    by_cases heq : f b = f c
    · exact heq ▸ ih
    · exact ih.tail (hjoins b c hbc heq)

/-- What is reached from elsewhere has a parent. -/
theorem Reaches.parents_ne_nil {a b : Nat} (h : graph.Reaches a b) (hne : b ≠ a) :
    graph.parents b ≠ [] := by
  obtain heq | ⟨c, -, hcb⟩ := Relation.ReflTransGen.cases_tail h
  · exact absurd heq hne
  · exact List.ne_nil_of_mem (mem_parents.mpr hcb)

/-! ## Adding edges -/

private theorem exists_insertEdge {e : Edge} {fs : List Edge} {a b : Nat} :
    (∃ f ∈ insertEdge e fs, f.source = a ∧ f.target = b) ↔
      (e.source = a ∧ e.target = b) ∨ ∃ f ∈ fs, f.source = a ∧ f.target = b := by
  induction fs with
  | nil =>
    rw [insertEdge]
    simp only [List.mem_singleton, exists_eq_left, List.not_mem_nil, false_and, exists_false,
      or_false]
  | cons f fs ih =>
    rw [insertEdge]
    split
    · simp only [List.mem_cons, exists_eq_or_imp]
    · split
      · rename_i heq
        simp only [List.mem_cons, exists_eq_or_imp, heq.1, heq.2]
        rw [← or_assoc, or_self]
      · simp only [List.mem_cons, exists_eq_or_imp, ih]
        rw [or_left_comm]

theorem joins_addEdge {s t a b : Nat} :
    (graph.addEdge s t).Joins a b ↔ graph.Joins a b ∨ (s ≠ t ∧ s = a ∧ t = b) := by
  unfold addEdge
  split
  · rename_i hadmits
    rw [admits, Bool.and_eq_true, bne_iff_ne] at hadmits
    unfold Joins
    rw [exists_insertEdge, or_comm, and_iff_right hadmits.1]
  · rename_i hadmits
    rw [admits, Bool.and_eq_true, bne_iff_ne, not_and, Bool.not_eq_true', ← Bool.not_eq_true,
      not_not] at hadmits
    refine (or_iff_left_of_imp ?_).symm
    rintro ⟨hne, rfl, rfl⟩
    exact hasEdge_iff.mp (hadmits hne)

theorem joins_mergeEdge {e : Edge} {a b : Nat} :
    (graph.mergeEdge e).Joins a b ↔
      graph.Joins a b ∨ (e.source ≠ e.target ∧ e.source = a ∧ e.target = b) := by
  unfold mergeEdge
  split
  · rename_i heq
    exact (or_iff_left fun h ↦ h.1 heq).symm
  · rename_i hne
    rw [and_iff_right hne, or_comm]
    split
    · exact exists_insertEdge
    · rename_i f hf
      have heq := List.find?_some hf
      rw [Bool.and_eq_true, beq_iff_eq, beq_iff_eq] at heq
      refine exists_insertEdge.trans ?_
      rw [heq.1, heq.2]
      rfl

theorem nodes_addEdge (s t : Nat) : (graph.addEdge s t).nodes = graph.nodes := by
  unfold addEdge
  split <;> rfl

theorem nodes_mergeEdge (e : Edge) : (graph.mergeEdge e).nodes = graph.nodes := by
  unfold mergeEdge
  split
  · rfl
  · split <;> rfl

/-! ## Simple graphs -/

theorem mem_of_node?_eq_some {id : Nat} {n : Node sp} (hn : graph.node? id = some n) :
    n ∈ graph.nodes ∧ n.id = id :=
  ⟨List.mem_of_find?_eq_some hn,
    beq_iff_eq.mp (List.find?_some (p := fun n : Node sp ↦ n.id == id) hn)⟩

/-- Nodes with ascending numbers, and edges between different nodes. -/
structure Simple (graph : Graph sp) : Prop where
  ascending : graph.nodes.Pairwise fun n m ↦ n.id < m.id
  ends : ∀ a b, graph.Joins a b →
    (∃ n ∈ graph.nodes, n.id = a) ∧ (∃ n ∈ graph.nodes, n.id = b) ∧ a ≠ b

namespace Simple

variable (h : graph.Simple)

include h

theorem nodup_ids : (graph.nodes.map (·.id)).Nodup := by
  rw [List.Nodup, List.pairwise_map]
  exact h.ascending.imp fun hlt ↦ Nat.ne_of_lt hlt

theorem eq_of_id_eq {n m : Node sp} (hn : n ∈ graph.nodes) (hm : m ∈ graph.nodes)
    (hnm : n.id = m.id) : n = m := List.inj_on_of_nodup_map h.nodup_ids hn hm hnm

theorem node?_eq_some {n : Node sp} (hn : n ∈ graph.nodes) : graph.node? n.id = some n := by
  cases hf : graph.node? n.id with
  | none =>
    rw [node?, List.find?_eq_none] at hf
    exact absurd (beq_self_eq_true n.id) (hf n hn)
  | some m =>
    obtain ⟨hm, hid⟩ := mem_of_node?_eq_some hf
    rw [h.eq_of_id_eq hm hn hid]

end Simple

/-! ## Well-formed graphs -/

/-- Nodes with ascending numbers, a single initial node, and edges between different nodes. -/
structure WellFormed (graph : Graph sp) : Prop where
  ascending : graph.nodes.Pairwise fun n m ↦ n.id < m.id
  root : ∃ n ∈ graph.nodes, n.id = initialId
  initial_iff : ∀ n ∈ graph.nodes, n.kind = .initial ↔ n.id = initialId
  ends : ∀ a b, graph.Joins a b →
    (∃ n ∈ graph.nodes, n.id = a) ∧ (∃ n ∈ graph.nodes, n.id = b) ∧ a ≠ b

namespace WellFormed

variable (h : graph.WellFormed)

include h

theorem simple : graph.Simple where
  ascending := h.ascending
  ends := h.ends

theorem eq_of_id_eq {n m : Node sp} (hn : n ∈ graph.nodes) (hm : m ∈ graph.nodes)
    (hnm : n.id = m.id) : n = m := h.simple.eq_of_id_eq hn hm hnm

theorem node?_eq_some {n : Node sp} (hn : n ∈ graph.nodes) : graph.node? n.id = some n :=
  h.simple.node?_eq_some hn

theorem id_ne_initialId {n : Node sp} (hn : n ∈ graph.nodes) (hkind : n.kind ≠ .initial) :
    n.id ≠ initialId := fun h0 ↦ hkind ((h.initial_iff n hn).mpr h0)

/-- New edges have to join different nodes. -/
theorem of_nodes_eq {graph' : Graph sp} (hnodes : graph'.nodes = graph.nodes)
    (hjoins : ∀ a b, graph'.Joins a b → graph.Joins a b ∨
      ((∃ n ∈ graph.nodes, n.id = a) ∧ (∃ n ∈ graph.nodes, n.id = b) ∧ a ≠ b)) :
    graph'.WellFormed where
  ascending := hnodes ▸ h.ascending
  root := hnodes ▸ h.root
  initial_iff := hnodes ▸ h.initial_iff
  ends := fun a b hab ↦ by
    rw [hnodes]
    exact (hjoins a b hab).elim (h.ends a b) fun hnew ↦ hnew

end WellFormed

theorem WellFormed.addEdge (h : graph.WellFormed) {s t : Nat} (hs : ∃ n ∈ graph.nodes, n.id = s)
    (ht : ∃ n ∈ graph.nodes, n.id = t) : (graph.addEdge s t).WellFormed := by
  refine h.of_nodes_eq (nodes_addEdge s t) fun a b hab ↦ ?_
  rcases joins_addEdge.mp hab with hold | ⟨hne, rfl, rfl⟩
  · exact Or.inl hold
  · exact Or.inr ⟨hs, ht, hne⟩

/-! ## Adding nodes -/

theorem insertNode_of_forall_lt {n : Node sp} {ms : List (Node sp)} (h : ∀ m ∈ ms, m.id < n.id) :
    insertNode n ms = ms ++ [n] := by
  induction ms with
  | nil => rfl
  | cons m ms ih =>
    have hm : m.id < n.id := h m List.mem_cons_self
    rw [insertNode, if_neg (Nat.lt_asymm hm), if_neg (Nat.ne_of_gt hm),
      ih fun k hk ↦ h k (List.mem_cons_of_mem m hk), List.cons_append]

theorem id_lt_nextId (h : graph.nodes.Pairwise fun n m ↦ n.id < m.id) {n : Node sp}
    (hn : n ∈ graph.nodes) : n.id < graph.nextId := by
  unfold nextId
  obtain ⟨front, last, hlast⟩ : ∃ front last, graph.nodes = front ++ [last] :=
    ⟨_, _, (List.dropLast_append_getLast (List.ne_nil_of_mem hn)).symm⟩
  rw [hlast, List.getLast?_append, List.getLast?_singleton, Option.some_or]
  rw [hlast] at h hn
  rcases List.mem_append.mp hn with hn | hn
  · exact Nat.lt_succ_of_lt ((List.pairwise_append.mp h).2.2 n hn last List.mem_cons_self)
  · rw [List.mem_singleton.mp hn]
    exact Nat.lt_succ_self _

theorem WellFormed.nodes_addNode (h : graph.WellFormed) {n : Node sp}
    (hid : n.id = graph.nextId) : (graph.addNode n).nodes = graph.nodes ++ [n] :=
  insertNode_of_forall_lt fun _ hm ↦ hid ▸ id_lt_nextId h.ascending hm

theorem WellFormed.addNode (h : graph.WellFormed) {n : Node sp} (hid : n.id = graph.nextId)
    (hkind : n.kind ≠ .initial) : (graph.addNode n).WellFormed where
  ascending := by
    rw [h.nodes_addNode hid, List.pairwise_append]
    refine ⟨h.ascending, List.pairwise_singleton _ n, fun m hm k hk ↦ ?_⟩
    rw [List.mem_singleton.mp hk, hid]
    exact id_lt_nextId h.ascending hm
  root := by
    obtain ⟨m, hm, hmid⟩ := h.root
    rw [h.nodes_addNode hid]
    exact ⟨m, List.mem_append_left _ hm, hmid⟩
  initial_iff := by
    intro m hm
    rw [h.nodes_addNode hid] at hm
    rcases List.mem_append.mp hm with hm | hm
    · exact h.initial_iff m hm
    · rw [List.mem_singleton.mp hm]
      refine iff_of_false hkind fun h0 ↦ ?_
      obtain ⟨k, hk, hk0⟩ := h.root
      have hlt := id_lt_nextId h.ascending hk
      rw [hk0, ← hid, h0] at hlt
      exact Nat.lt_irrefl _ hlt
  ends := by
    intro a b hab
    obtain ⟨⟨n₁, hn₁, ha⟩, ⟨n₂, hn₂, hb⟩, hne⟩ := h.ends a b hab
    rw [h.nodes_addNode hid]
    exact ⟨⟨n₁, List.mem_append_left _ hn₁, ha⟩, ⟨n₂, List.mem_append_left _ hn₂, hb⟩, hne⟩

/-- The graph of the initial node alone. -/
theorem wellFormed_initial {n : Node sp} (hid : n.id = initialId) (hkind : n.kind = .initial) :
    (empty.addNode n).WellFormed where
  ascending := List.pairwise_singleton _ n
  root := ⟨n, List.mem_singleton_self n, hid⟩
  initial_iff := fun m hm ↦ by
    rw [List.mem_singleton.mp hm]
    exact iff_of_true hkind hid
  ends := fun _ _ ⟨_, he, _⟩ ↦ absurd he List.not_mem_nil

end JusticeViolation.Graph

namespace JusticeViolation

variable {sp : Space} {g : Game sp}

/-! ## Edges where a step is found -/

/-- The states that a step out of the node arrives in. -/
def Node.arrivals (g : Game sp) (n : Node sp) : StateSet sp :=
  if n.id = Graph.initialId then g.initial else g.strip (g.image n.states n.transitions)

namespace Node

variable {n : Node sp}

theorem arrivals_of_eq (h0 : n.id = Graph.initialId) : n.arrivals g = g.initial := if_pos h0

theorem arrivals_of_ne (h0 : n.id ≠ Graph.initialId) :
    n.arrivals g = g.strip (g.image n.states n.transitions) := if_neg h0

end Node

namespace Graph

variable {graph : Graph sp}

theorem arrivals?_congr {graph' : Graph sp} (h : graph'.nodes = graph.nodes) (source : Nat) :
    graph'.arrivals? g source = graph.arrivals? g source := by
  unfold arrivals? node?
  rw [h]

theorem edgeStates?_congr {graph' : Graph sp} (h : graph'.nodes = graph.nodes)
    (source target : Nat) :
    graph'.edgeStates? g source target = graph.edgeStates? g source target := by
  unfold edgeStates? node?
  rw [h, arrivals?_congr h]

/-- What an edge carries. -/
theorem edgeStates?_eq_some {source : Nat} {n : Node sp} {s : StateSet sp}
    (hn : graph.node? n.id = some n) (hs : graph.arrivals? g source = some s) :
    graph.edgeStates? g source n.id = some (s ∩ g.strip n.states) := by
  unfold edgeStates?
  rw [hn, hs]
  rfl

theorem arrivals?_of_mem (h : graph.WellFormed) {n : Node sp} (hn : n ∈ graph.nodes)
    (h0 : n.id ≠ initialId) :
    graph.arrivals? g n.id = some (g.strip (g.image n.states n.transitions)) := by
  rw [arrivals?, if_neg h0, h.node?_eq_some hn]
  rfl

/-- An edge between nodes of the graph would carry what arrives in its target. -/
theorem Simple.edgeStates?_eq (h : graph.Simple) {n m : Node sp} (hn : n ∈ graph.nodes)
    (hm : m ∈ graph.nodes) :
    graph.edgeStates? g n.id m.id = some (n.arrivals g ∩ g.strip m.states) := by
  refine edgeStates?_eq_some (h.node?_eq_some hm) ?_
  unfold arrivals? Node.arrivals
  split
  · rfl
  · rw [h.node?_eq_some hn]
    rfl

/-- A node leads where it did when others are added. -/
theorem arrivals?_append {graph' : Graph sp} {news : List (Node sp)} (h : graph'.WellFormed)
    (hnodes : graph'.nodes = graph.nodes ++ news) {source : Nat} {s : StateSet sp}
    (hs : graph.arrivals? g source = some s) : graph'.arrivals? g source = some s := by
  unfold arrivals? at hs ⊢
  split at hs
  · rename_i h0
    rw [if_pos h0]
    exact hs
  · rename_i h0
    rw [if_neg h0]
    cases hn : graph.node? source with
    | none =>
      rw [hn] at hs
      simp at hs
    | some n =>
      obtain ⟨hmem, rfl⟩ := mem_of_node?_eq_some hn
      rw [h.node?_eq_some (hnodes ▸ List.mem_append_left _ hmem), ← hn]
      exact hs

theorem exists_of_arrivals?_eq_some (h : graph.WellFormed) {source : Nat} {s : StateSet sp}
    (hs : graph.arrivals? g source = some s) : ∃ n ∈ graph.nodes, n.id = source := by
  unfold arrivals? at hs
  split at hs
  · rename_i h0
    exact h0 ▸ h.root
  · cases hn : graph.node? source with
    | none =>
      rw [hn] at hs
      simp at hs
    | some n => exact ⟨n, mem_of_node?_eq_some hn⟩

theorem exists_of_edgeStates?_eq_some {source target : Nat} {s : StateSet sp}
    (h : graph.edgeStates? g source target = some s) : ∃ n t, graph.node? target = some n ∧
      graph.arrivals? g source = some t ∧ s = t ∩ g.strip n.states := by
  unfold edgeStates? at h
  cases hn : graph.node? target with
  | none =>
    rw [hn] at h
    simp at h
  | some n =>
    rw [hn] at h
    cases ht : graph.arrivals? g source with
    | none =>
      rw [ht] at h
      simp at h
    | some t =>
      rw [ht] at h
      exact ⟨n, t, rfl, rfl, (Option.some.inj h).symm⟩

theorem mem_of_edgeStates?_eq_some {source target : Nat} {s : StateSet sp}
    (hwf : graph.WellFormed) (h : graph.edgeStates? g source target = some s) :
    (∃ n ∈ graph.nodes, n.id = source) ∧ ∃ n ∈ graph.nodes, n.id = target := by
  obtain ⟨n, t, hn, ht, -⟩ := exists_of_edgeStates?_eq_some h
  exact ⟨exists_of_arrivals?_eq_some hwf ht, n, mem_of_node?_eq_some hn⟩

/-- An edge carries what it did when nodes are added. -/
theorem edgeStates?_append {graph' : Graph sp} {news : List (Node sp)} (h : graph'.WellFormed)
    (hnodes : graph'.nodes = graph.nodes ++ news) {source target : Nat} {s : StateSet sp}
    (hs : graph.edgeStates? g source target = some s) :
    graph'.edgeStates? g source target = some s := by
  obtain ⟨n, t, hn, ht, rfl⟩ := exists_of_edgeStates?_eq_some hs
  obtain ⟨hmem, rfl⟩ := mem_of_node?_eq_some hn
  exact edgeStates?_eq_some (h.node?_eq_some (hnodes ▸ List.mem_append_left _ hmem))
    (arrivals?_append h hnodes ht)

open Decomposition in
theorem joins_connect {s t a b : Nat} :
    (connect g graph s t).Joins a b ↔ graph.Joins a b ∨
      ((graph.edgeStates? g s t).any (fun u ↦ !u.isEmpty) = true ∧ s ≠ t ∧ s = a ∧ t = b) := by
  unfold connect
  split
  · rename_i hany
    rw [joins_addEdge, and_iff_right hany]
  · rename_i hany
    exact (or_iff_left fun h ↦ hany h.1).symm

open Decomposition in
theorem nodes_connect (s t : Nat) : (connect g graph s t).nodes = graph.nodes := by
  unfold connect
  split
  · exact nodes_addEdge s t
  · rfl

open Decomposition in
/-- **The edges found around some candidates.** -/
theorem joins_connectFold (pairs : List (Nat × Nat)) (a b : Nat) :
    let result := pairs.foldl (fun graph (s, t) ↦ connect g graph s t) graph
    result.nodes = graph.nodes ∧ (result.Joins a b ↔ graph.Joins a b ∨
      ((a, b) ∈ pairs ∧ a ≠ b ∧ (graph.edgeStates? g a b).any (fun u ↦ !u.isEmpty) = true)) := by
  induction pairs generalizing graph with
  | nil =>
    refine ⟨rfl, (or_iff_left fun h ↦ List.not_mem_nil h.1).symm⟩
  | cons p pairs ih =>
    obtain ⟨s, t⟩ := p
    rw [List.foldl_cons]
    obtain ⟨hnodes, hjoins⟩ := @ih (connect g graph s t)
    refine ⟨hnodes.trans (nodes_connect s t), ?_⟩
    rw [hjoins, joins_connect, edgeStates?_congr (nodes_connect s t)]
    constructor
    · rintro ((hab | ⟨hany, hne, rfl, rfl⟩) | ⟨hmem, hrest⟩)
      · exact Or.inl hab
      · exact Or.inr ⟨List.mem_cons_self, hne, hany⟩
      · exact Or.inr ⟨List.mem_cons_of_mem _ hmem, hrest⟩
    · rintro (hab | ⟨hmem, hne, hany⟩)
      · exact Or.inl (Or.inl hab)
      · rcases List.mem_cons.mp hmem with heq | hmem
        · rw [Prod.mk.injEq] at heq
          obtain ⟨rfl, rfl⟩ := heq
          exact Or.inl (Or.inr ⟨hany, hne, rfl, rfl⟩)
        · exact Or.inr ⟨hmem, hne, hany⟩

end Graph

end JusticeViolation

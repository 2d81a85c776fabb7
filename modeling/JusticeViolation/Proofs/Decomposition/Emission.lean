import JusticeViolation.Proofs.Decomposition.Numbering

/-!
# Where the nodes of a decomposition come from

Apart from the initial node, every node of a decomposition was emitted for one of the three parts
of a rank, whatever the sets of the game are. So what is to be shown of all nodes of a decomposition
has to be shown of the nodes that one rank can emit: they hold a state, they are of the rank taken
up, and a cycle among them has the body that was computed for it.
-/

namespace JusticeViolation

variable {sp : Space} {g : Game sp} {o : Options} {ranking : Ranking sp}

open Decomposition in
/-- A node that is emitted when the rank of `item` is decomposed, for a part that is not empty. -/
inductive Node.Emitted (g : Game sp) (o : Options) (ranking : Ranking sp) : Node sp → Prop
  | approach (item : Item sp) (id : Nat)
      (hne : ∃ i, i ∈ (item.split g (lower ranking item.node)).approach) :
    Emitted g o ranking ⟨id, some item.node.rank,
      (item.split g (lower ranking item.node)).approach,
      (item.split g (lower ranking item.node)).tracing.inner ∩
        (item.split g (lower ranking item.node)).approach, [], .attractorNotFromCycle⟩
  | cycle (item : Item sp) (id : Nat) (body : NodeBody sp)
      (hbody : cycleBody g o item.node.rank (item.split g (lower ranking item.node)) = .ok body)
      (hne : ∃ i, i ∈ (item.split g (lower ranking item.node)).cycle) :
    Emitted g o ranking ⟨id, some item.node.rank,
      (item.split g (lower ranking item.node)).cycle,
      (item.split g (lower ranking item.node)).tracing.inner ∩
        (item.split g (lower ranking item.node)).cycle, [], body⟩
  | descent (item : Item sp) (id : Nat)
      (hne : ∃ i, i ∈ (item.split g (lower ranking item.node)).descent) :
    Emitted g o ranking ⟨id, some item.node.rank,
      (item.split g (lower ranking item.node)).descent,
      (item.split g (lower ranking item.node)).tracing.inner ∩
        (item.split g (lower ranking item.node)).descent, [], .attractorFromCycle⟩

namespace Node.Emitted

variable {n : Node sp}

theorem exists_mem (h : n.Emitted g o ranking) : ∃ i, i ∈ n.states := by
  cases h with
  | approach _ _ hne => exact hne
  | cycle _ _ _ _ hne => exact hne
  | descent _ _ hne => exact hne

theorem rank_ne_none (h : n.Emitted g o ranking) : n.rank ≠ none := by
  cases h <;> exact Option.some_ne_none _

end Node.Emitted

namespace Graph

theorem mem_insertNode {k n : Node sp} {ms : List (Node sp)} (hk : k ∈ insertNode n ms) :
    k = n ∨ k ∈ ms := by
  induction ms with
  | nil => exact Or.inl (List.mem_singleton.mp hk)
  | cons m ms ih =>
    rw [insertNode] at hk
    split at hk
    · exact List.mem_cons.mp hk
    · split at hk
      · exact (List.mem_cons.mp hk).imp_right (List.mem_cons_of_mem m)
      · rcases List.mem_cons.mp hk with rfl | hk
        · exact Or.inr List.mem_cons_self
        · exact (ih hk).imp_right (List.mem_cons_of_mem m)

end Graph

namespace Decomposition

variable {d d' : Decomposition sp} {n : Node sp}

/-- A node is there already, or it is the one that is emitted. -/
theorem of_mem_emit {rank : Nat} {inner states : StateSet sp} {body : NodeBody sp}
    {e : Decomposition sp × List Nat}
    (hn : n ∈ (emit rank inner states body e).1.graph.nodes) :
    n ∈ e.1.graph.nodes ∨ (∃ i, i ∈ states) ∧
      n = ⟨e.1.graph.nextId, some rank, states, inner ∩ states, [], body⟩ := by
  obtain ⟨d, emitted⟩ := e
  unfold emit at hn
  dsimp only at hn
  split at hn
  · exact Or.inl hn
  · rename_i hne
    have hstates := StateSet.isEmpty_eq_false_iff.mp (Bool.not_eq_true _ ▸ hne)
    exact (Graph.mem_insertNode hn).symm.imp_right fun heq ↦ ⟨hstates, heq⟩

/-- The parts of a rank, each with the body of its node. -/
inductive Yields (g : Game sp) (o : Options) (rank : Nat) (s : Split sp) :
    StateSet sp → NodeBody sp → Prop
  | approach : Yields g o rank s s.approach .attractorNotFromCycle
  | cycle {body : NodeBody sp} (hbody : cycleBody g o rank s = .ok body) :
    Yields g o rank s s.cycle body
  | descent : Yields g o rank s s.descent .attractorFromCycle

/-- **Taking up a rank** adds no nodes but those of its parts. -/
theorem exists_part_of_mem_process {item : Item sp} (hok : d.process g o ranking item = .ok d')
    (hn : n ∈ d'.graph.nodes) : n ∈ d.graph.nodes ∨ ∃ id part body,
      Yields g o item.node.rank (item.split g (lower ranking item.node)) part body ∧
      (∃ i, i ∈ part) ∧ n = ⟨id, some item.node.rank, part,
        (item.split g (lower ranking item.node)).tracing.inner ∩ part, [], body⟩ := by
  obtain ⟨body, hbody, d₁, paths, nodes, rfl, hsuccessors⟩ := queueSuccessors_of_process hok
  have hgraph : d₁.graph = _ := graph_queueSuccessors hsuccessors
  change n ∈ d₁.graph.nodes at hn
  rw [hgraph] at hn
  unfold extend at hn
  dsimp only at hn
  rw [connectAll, (Graph.joins_connectFold _ 0 0).1] at hn
  -- the parts are emitted in the order approach, cycle, descent
  rcases of_mem_emit hn with hn | ⟨hne, rfl⟩
  · rcases of_mem_emit hn with hn | ⟨hne, rfl⟩
    · rcases of_mem_emit hn with hn | ⟨hne, rfl⟩
      · exact Or.inl ((takeUp_spec item d).1 ▸ hn)
      · exact Or.inr ⟨_, _, _, .approach, hne, rfl⟩
    · exact Or.inr ⟨_, _, _, .cycle hbody, hne, rfl⟩
  · exact Or.inr ⟨_, _, _, .descent, hne, rfl⟩

/-- What is added has been emitted. -/
theorem of_mem_process {item : Item sp} (hok : d.process g o ranking item = .ok d')
    (hn : n ∈ d'.graph.nodes) : n ∈ d.graph.nodes ∨ n.Emitted g o ranking := by
  rcases exists_part_of_mem_process hok hn with hn | ⟨id, part, body, hpart, hne, rfl⟩
  · exact Or.inl hn
  · cases hpart with
    | approach => exact Or.inr (.approach item id hne)
    | cycle hbody => exact Or.inr (.cycle item id body hbody hne)
    | descent => exact Or.inr (.descent item id hne)

/-- **Every node of a decomposition** is the initial one, or was emitted. -/
theorem of_mem_decompose (h : g.decompose o ranking = .ok d) (hn : n ∈ d.graph.nodes) :
    n = ⟨Graph.initialId, none, g.initial, ∅, [], .initial⟩ ∨ n.Emitted g o ranking := by
  refine run_preserves (P := fun d ↦ ∀ n ∈ d.graph.nodes,
      n = ⟨Graph.initialId, none, g.initial, ∅, [], .initial⟩ ∨ n.Emitted g o ranking)
    (fun _ hok ih m hm ↦ ?_) (start_induction (P := fun d ↦ ∀ n ∈ d.graph.nodes,
      n = ⟨Graph.initialId, none, g.initial, ∅, [], .initial⟩ ∨ n.Emitted g o ranking)
      (fun m hm ↦ Or.inl (List.mem_singleton.mp hm)) fun _ _ _ ih ↦ ih) h n hn
  exact (of_mem_process hok hm).elim (ih m) Or.inr

end Decomposition

end JusticeViolation

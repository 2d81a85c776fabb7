import JusticeViolation.Proofs.Construction.Outcome

/-!
# No successor is lost

Whatever the committed choices of a node lead to, rows aside, lies in the node or in one of its
children. A decomposition makes sure of that rank by rank, as long as the layers hold all states of
each rank; a node of a deadlock leads nowhere. Merging keeps it: the child may have become a part
of the node itself.
-/

namespace JusticeViolation

variable {sp : Space} {g : Game sp} {graph graph' : Graph sp}

/-- What the nodes but the initial one lead to lies in them or in their children. -/
structure Graph.Closed (g : Game sp) (graph : Graph sp) : Prop where
  mem_states : ∀ n ∈ graph.nodes, n.id ≠ initialId → ∀ v ∈ n.transitions, v ∈ n.states
  covered : ∀ n ∈ graph.nodes, n.id ≠ initialId →
    ∀ i ∈ g.strip (g.image n.states n.transitions), i ∈ g.strip n.states ∨
      ∃ m ∈ graph.nodes, graph.Joins n.id m.id ∧ i ∈ g.strip m.states

namespace Graph

section Folds

variable {f : Nat → Nat} {n' : Node sp} (hs : g.Shaped) (hf : Folds f graph graph')

include hs hf

/-- What a node that goes to another holds under some tag, the other holds. -/
theorem Folds.mem_strip_states (hn' : n' ∈ graph'.nodes) {n : Node sp} (hn : n ∈ graph.nodes)
    (hid : f n.id = n'.id) {i : Nat} (hi : i ∈ g.strip n.states) : i ∈ g.strip n'.states :=
  hs.strip_mono (fun j hj ↦ (hf.mem_states n' hn' j).mpr ⟨n, hn, hid, hj⟩) hi

/-- **A new node leads where the nodes that went there did.** -/
theorem Folds.mem_strip_image (hn' : n' ∈ graph'.nodes)
    (hsub : ∀ n ∈ graph.nodes, f n.id = n'.id → ∀ v ∈ n.transitions, v ∈ n.states) {i : Nat} :
    i ∈ g.strip (g.image n'.states n'.transitions) ↔
      ∃ n ∈ graph.nodes, f n.id = n'.id ∧ i ∈ g.strip (g.image n.states n.transitions) := by
  constructor
  · intro hi
    obtain ⟨hlt, j, hj, hji⟩ := (hs.mem_strip (Game.current_image _ _)).mp hi
    obtain ⟨hjlt, v, -, hv, hsys, hnext⟩ := Game.mem_image.mp hj
    -- the step belongs to one of the nodes that went here
    obtain ⟨n, hn, hid, hvn⟩ := (hf.mem_transitions n' hn' v).mp hv
    have hj' : j ∈ g.image n.states n.transitions :=
      Game.mem_image.mpr ⟨hjlt, v, hsub n hn hid v hvn, hvn, hsys, hnext⟩
    exact ⟨n, hn, hid, (hs.mem_strip (Game.current_image _ _)).mpr ⟨hlt, j, hj', hji⟩⟩
  · rintro ⟨n, hn, hid, hi⟩
    refine hs.strip_mono (fun j hj ↦ ?_) hi
    obtain ⟨hlt, v, hvs, hv, hsys, hnext⟩ := Game.mem_image.mp hj
    exact Game.mem_image.mpr ⟨hlt, v, (hf.mem_states n' hn' v).mpr ⟨n, hn, hid, hvs⟩,
      (hf.mem_transitions n' hn' v).mpr ⟨n, hn, hid, hv⟩, hsys, hnext⟩

/-- Folding loses no successor. -/
theorem Closed.folds (h : graph.Closed g) : graph'.Closed g := by
  refine ⟨fun n' hn' h0 v hv ↦ ?_, fun n' hn' h0 i hi ↦ ?_⟩
  · obtain ⟨n, hn, hid, hvn⟩ := (hf.mem_transitions n' hn' v).mp hv
    exact (hf.mem_states n' hn' v).mpr
      ⟨n, hn, hid, h.mem_states n hn (hf.id_ne_initialId hn hid h0) v hvn⟩
  · obtain ⟨n, hn, hid, hi⟩ := (hf.mem_strip_image hs hn' fun n hn hid ↦
      h.mem_states n hn (hf.id_ne_initialId hn hid h0)).mp hi
    rcases h.covered n hn (hf.id_ne_initialId hn hid h0) i hi with hself | ⟨m, hm, hjoins, him⟩
    · exact Or.inl (hf.mem_strip_states hs hn' hn hid hself)
    · by_cases heq : f n.id = f m.id
      · exact Or.inl (hf.mem_strip_states hs hn' hm (heq.symm.trans hid) him)
      · obtain ⟨m', hm', hid'⟩ := hf.exists_node m hm
        refine Or.inr ⟨m', hm', ?_, hf.mem_strip_states hs hm' hm hid'.symm him⟩
        rw [← hid, hid']
        exact hf.joins n.id m.id hjoins heq

end Folds

end Graph

namespace Game

/-- No answer is left in a deadlock. -/
theorem Deadlock.closed (hs : g.Shaped) (h : g.Deadlock graph) : graph.Closed g where
  mem_states := fun n hn h0 v hv ↦ by
    obtain ⟨hstates, htrans, -⟩ := h.stuck n hn h0
    rw [htrans] at hv
    rw [hstates]
    exact mem_domain_of_mem (determinize_subset hv)
  covered := fun n hn h0 i hi ↦ by
    obtain ⟨-, j, hj, -⟩ := (hs.mem_strip (current_image _ _)).mp hi
    obtain ⟨-, v, -, hv, hsys, -⟩ := mem_image.mp hj
    rw [(h.stuck n hn h0).2.1] at hv
    have hdead := (mem_deadlocking.mp (StateSet.mem_inter.mp (determinize_subset hv)).1).2
    exact absurd (Space.AgreeOff.refl _ v) (hdead v hsys)

end Game

namespace Decomposition

variable {ranking : Ranking sp}

theorem Finished.closed (hs : g.Shaped) (ho : g.OfStates) (hcover : g.RowsCover)
    (h : Finished g ranking graph) : graph.Closed g where
  mem_states := fun n hn h0 v hv ↦ by
    obtain ⟨items, horigin⟩ := h.origin
    obtain ⟨r, -, hfrom⟩ := horigin n hn h0
    exact hfrom.mem_states hv
  covered := fun n hn h0 i hi ↦ by
    obtain ⟨hlt, j, hj, hji⟩ := (hs.mem_strip (Game.current_image _ _)).mp hi
    obtain ⟨-, v, -, hv, hsys, hnext⟩ := Game.mem_image.mp hj
    have hbare : sp.bare g.marker (sp.next v) = sp.bare g.marker i := by
      rw [hnext, Space.bare_now, hji]
    have hmem : ∀ {m : Node sp}, m ∈ graph.nodes →
        (sp.next v ∈ g.strip m.states ↔ i ∈ g.strip m.states) := fun hm ↦
      (hs.untagged_strip (h.current hs ho hm)).mem_iff_of_bare_eq (sp.next_lt v) hlt hbare
    rcases h.complete hcover n hn h0 v hv hsys with hself | ⟨m, hm, hjoins, hnm⟩
    · exact Or.inl ((hmem hn).mp hself)
    · exact Or.inr ⟨m, hm, hjoins, (hmem hm).mp hnm⟩

end Decomposition

namespace Game

variable {o : Options}

/-- **No successor is lost.** What a node leads to, rows aside, lies in the node or in one of its
children. -/
theorem successor_mem_of_build (ho : g.OfStates) (hcover : g.RowsCover)
    (hb : g.build o = .ok graph) {n : Node sp} (hn : n ∈ graph.nodes)
    (h0 : n.id ≠ Graph.initialId) {i : Nat}
    (hi : i ∈ g.strip (g.image n.states n.transitions)) :
    i ∈ g.strip n.states ∨
      ∃ m ∈ graph.nodes, m.id ∈ graph.children n.id ∧ i ∈ g.strip m.states := by
  have hs := shaped_of_shapeFault?_eq_none (shapeFault?_of_build hb)
  obtain ⟨bare, f, hf, hbare⟩ := exists_folds_of_build ho hb
  have hclosed : graph.Closed g := by
    rcases hbare with hdead | ⟨ranking, -, hfinished⟩
    · exact Graph.Closed.folds hs hf (hdead.closed hs)
    · exact Graph.Closed.folds hs hf (hfinished.closed hs ho hcover)
  refine (hclosed.covered n hn h0 i hi).imp_right ?_
  rintro ⟨m, hm, hjoins, him⟩
  exact ⟨m, hm, Graph.mem_children.mpr hjoins, him⟩

/-- In the game of turns there is a successor to be found. -/
theorem successor_mem_turns : ∃ graph, turns.build {} = .ok graph ∧ ∃ n ∈ graph.nodes,
    n.id ≠ Graph.initialId ∧ ∃ i ∈ turns.strip (turns.image n.states n.transitions),
      i ∈ turns.strip n.states ∨
        ∃ m ∈ graph.nodes, m.id ∈ graph.children n.id ∧ i ∈ turns.strip m.states := by
  obtain ⟨graph, hb, hany⟩ := exists_of_any_build (g := turns) (o := {})
    (p := fun graph ↦ graph.nodes.any fun n ↦ n.id != Graph.initialId &&
      !(turns.strip (turns.image n.states n.transitions)).isEmpty) (by decide +kernel)
  obtain ⟨n, hn, hstep⟩ := List.any_eq_true.mp hany
  rw [Bool.and_eq_true, bne_iff_ne, Bool.not_eq_true', StateSet.isEmpty_eq_false_iff] at hstep
  obtain ⟨h0, i, hi⟩ := hstep
  exact ⟨graph, hb, n, hn, h0, i, hi,
    successor_mem_of_build twoPlayer_turns.toOfStates solved_turns.cover hb hn h0 hi⟩

end Game

end JusticeViolation

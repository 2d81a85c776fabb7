import JusticeViolation.Decomposition
import JusticeViolation.Proofs.Progress

/-!
# The queue of ranks

The queue lists ranks that have not been taken up, from the highest down, all of them below those
that have. A new node leads to its own rank and to lower ones only, so offering what it leads to
never finds a rank that is done; whatever it leads to in another rank awaits that rank afterwards.
-/

namespace JusticeViolation.Decomposition

variable {sp : Space} {g : Game sp} {ranking : Ranking sp}

/-! ## Changing an item -/

section ChangeItem

variable {fresh item : Item sp} {change : Item sp → Item sp} {items : List (Item sp)}

theorem forall_changeItem {P : Item sp → Prop} (hfresh : P (change fresh))
    (hchange : ∀ item ∈ items, item.node.rank = fresh.node.rank → P (change item))
    (hold : ∀ item ∈ items, P item) : ∀ item ∈ changeItem fresh change items, P item := by
  induction items with
  | nil =>
    intro item hitem
    rw [changeItem, List.mem_singleton] at hitem
    rwa [hitem]
  | cons first items ih =>
    have hrest : ∀ item ∈ items, P item := fun item hi ↦ hold item (List.mem_cons_of_mem _ hi)
    intro item hitem
    rw [changeItem] at hitem
    split at hitem
    · rcases List.mem_cons.mp hitem with rfl | hitem
      · exact hfresh
      · exact hold item hitem
    · split at hitem
      · rename_i heq
        rcases List.mem_cons.mp hitem with rfl | hitem
        · exact hchange first List.mem_cons_self heq
        · exact hrest item hitem
      · rcases List.mem_cons.mp hitem with rfl | hitem
        · exact hold item List.mem_cons_self
        · exact ih (fun item hi ↦ hchange item (List.mem_cons_of_mem _ hi)) hrest item hitem

/-- An item stays, unless it is the one that changes. -/
theorem mem_changeItem_of_mem (hitem : item ∈ items) :
    item ∈ changeItem fresh change items ∨ change item ∈ changeItem fresh change items := by
  induction items with
  | nil => exact absurd hitem List.not_mem_nil
  | cons first items ih =>
    rw [changeItem]
    split
    · exact Or.inl (List.mem_cons_of_mem _ hitem)
    · split
      · rcases List.mem_cons.mp hitem with rfl | hitem
        · exact Or.inr List.mem_cons_self
        · exact Or.inl (List.mem_cons_of_mem _ hitem)
      · rcases List.mem_cons.mp hitem with rfl | hitem
        · exact Or.inl List.mem_cons_self
        · exact (ih hitem).imp (List.mem_cons_of_mem _) (List.mem_cons_of_mem _)

/-- The item of the rank is there, changed. -/
theorem exists_changeItem (fresh : Item sp) (change : Item sp → Item sp)
    (items : List (Item sp)) : ∃ item, (item = fresh ∨ item ∈ items) ∧
    item.node.rank = fresh.node.rank ∧ change item ∈ changeItem fresh change items := by
  induction items with
  | nil => exact ⟨fresh, Or.inl rfl, rfl, List.mem_cons_self⟩
  | cons first items ih =>
    rw [changeItem]
    split
    · exact ⟨fresh, Or.inl rfl, rfl, List.mem_cons_self⟩
    · split
      · rename_i heq
        exact ⟨first, Or.inr List.mem_cons_self, heq, List.mem_cons_self⟩
      · obtain ⟨item, hitem, hrank, hmem⟩ := ih
        exact ⟨item, hitem.imp_right (List.mem_cons_of_mem _), hrank, List.mem_cons_of_mem _ hmem⟩

theorem pairwise_changeItem (hnode : ∀ item, (change item).node = item.node)
    (h : items.Pairwise fun a b ↦ b.node.rank < a.node.rank) :
    (changeItem fresh change items).Pairwise fun a b ↦ b.node.rank < a.node.rank := by
  induction items with
  | nil => exact List.pairwise_singleton _ _
  | cons first items ih =>
    obtain ⟨hfirst, hitems⟩ := List.pairwise_cons.mp h
    rw [changeItem]
    split
    · rename_i hlt
      refine List.pairwise_cons.mpr ⟨fun item hitem ↦ ?_, h⟩
      rw [hnode]
      rcases List.mem_cons.mp hitem with rfl | hitem
      · exact hlt
      · exact (hfirst item hitem).trans hlt
    · split
      · refine List.pairwise_cons.mpr ⟨fun item hitem ↦ ?_, hitems⟩
        rw [hnode]
        exact hfirst item hitem
      · rename_i hge hne
        refine List.pairwise_cons.mpr ⟨forall_changeItem ?_ (fun item hitem _ ↦ ?_) hfirst,
          ih hitems⟩
        · rw [hnode]
          omega
        · rw [hnode]
          exact hfirst item hitem

end ChangeItem

/-! ## What the queue promises -/

/-- The state `i` awaits its rank, reached from the node `id`. -/
def Awaits (d : Decomposition sp) (id i : Nat) : Prop := ∃ item ∈ d.queue, item.Awaits id i

/-- The queue lists items of the ranking graph, from the highest rank down, below `bound`; what is
done is not below it. -/
structure Queued (g : Game sp) (ranking : Ranking sp) (bound : Nat) (d : Decomposition sp) :
    Prop where
  sorted : d.queue.Pairwise fun a b ↦ b.node.rank < a.node.rank
  below : ∀ item ∈ d.queue, item.node.rank < bound
  fits : ∀ item ∈ d.queue, item.Fits g
  mem_nodes : ∀ item ∈ d.queue, item.node ∈ ranking.nodes
  done : ∀ r ∈ d.done, bound ≤ r

variable {d : Decomposition sp} {bound : Nat}

section Enqueue

variable (h : g.Shaped) (hr : g.ranking? = some ranking)

include h hr

theorem fits_item {node : RankNode sp} (hnode : node ∈ ranking.nodes) : (g.item node).Fits g where
  states_eq := Ranking.states_eq h hr hnode
  cells_eq := rfl
  untagged_start := fun _ hp ↦ absurd hp List.not_mem_nil
  start_subset := fun _ hp ↦ absurd hp List.not_mem_nil

/-- **A change of one item** that keeps its rank and takes nothing away. -/
theorem Queued.enqueue (hq : d.Queued g ranking bound) {node : RankNode sp}
    (change : Item sp → Item sp) (hnode : node ∈ ranking.nodes) (hlt : node.rank < bound)
    (hkeep : ∀ item, (change item).node = item.node)
    (hfits : ∀ item : Item sp, item.Fits g → item.node = node → (change item).Fits g)
    (hawaits : ∀ item : Item sp, ∀ id i, item.Awaits id i → (change item).Awaits id i) :
    (d.enqueue g node change).Queued g ranking bound ∧
      (∀ id i, d.Awaits id i → (d.enqueue g node change).Awaits id i) ∧
      ∃ item : Item sp, item.Fits g ∧ item.node = node ∧
        change item ∈ (d.enqueue g node change).queue := by
  have hsame : ∀ item ∈ d.queue, item.node.rank = (g.item node).node.rank → item.node = node :=
    fun item hitem hrank ↦ Ranking.eq_of_rank_eq hr (hq.mem_nodes item hitem) hnode hrank
  refine ⟨?_, fun id i hi ↦ ?_, ?_⟩
  · exact {
      sorted := pairwise_changeItem hkeep hq.sorted
      below := by
        refine forall_changeItem ?_ (fun item hitem _ ↦ ?_) hq.below
        · rw [hkeep]
          exact hlt
        · rw [hkeep]
          exact hq.below item hitem
      fits := forall_changeItem (hfits _ (fits_item h hr hnode) rfl)
        (fun item hitem hrank ↦ hfits item (hq.fits item hitem) (hsame item hitem hrank)) hq.fits
      mem_nodes := by
        refine forall_changeItem ?_ (fun item hitem _ ↦ ?_) hq.mem_nodes
        · rw [hkeep]
          exact hnode
        · rw [hkeep]
          exact hq.mem_nodes item hitem
      done := hq.done }
  · obtain ⟨item, hitem, hi⟩ := hi
    rcases mem_changeItem_of_mem hitem with hmem | hmem
    · exact ⟨item, hmem, hi⟩
    · exact ⟨change item, hmem, hawaits item id i hi⟩
  · obtain ⟨item, hitem | hitem, hrank, hmem⟩ :=
      exists_changeItem (g.item node) change d.queue
    · exact ⟨item, hitem ▸ fits_item h hr hnode, by rw [hitem]; rfl, hmem⟩
    · exact ⟨item, hq.fits item hitem, hsame item hitem hrank, hmem⟩

end Enqueue

/-! ## What is kept -/

/-- What every step of a fold keeps, a fold that succeeds keeps. -/
private theorem foldlM_induction {α : Type}
    {f : Decomposition sp → α → Except Halt (Decomposition sp)} {P : Decomposition sp → Prop}
    {as : List α} (hstep : ∀ d, ∀ a ∈ as, ∀ d', P d → f d a = .ok d' → P d')
    {d d' : Decomposition sp} (h : P d) (hok : as.foldlM f d = .ok d') : P d' := by
  induction as generalizing d with
  | nil =>
    cases hok
    exact h
  | cons a as ih =>
    rw [List.foldlM_cons] at hok
    cases hf : f d a with
    | error e =>
      rw [hf] at hok
      cases hok
    | ok d₁ =>
      rw [hf] at hok
      exact ih (fun d b hb ↦ hstep d b (List.mem_cons_of_mem a hb))
        (hstep d a List.mem_cons_self d₁ h hf) hok

/-- **What queueing successors keeps**: all that is kept when a node is offered to another rank that
it leads to, which is not done. -/
theorem queueSuccessors_induction_of_not_done {P : Decomposition sp → Prop} {rank : Nat}
    {emitted : List Nat}
    (hoffer : ∀ (d : Decomposition sp), ∀ other ∈ ranking.nodes, ∀ id ∈ emitted, ∀ n cells,
      d.graph.node? id = some n → other.rank ≠ rank → other.rank ∉ d.done →
      (∃ i ∈ g.strip (g.image n.states n.transitions), i ∈ other.states) → P d →
        P ((d.enqueue g other fun item ↦
          item.offer (g.strip (g.image n.states n.transitions)) id).report
            (.successorQueued id other.rank cells)))
    {d d' : Decomposition sp} (h : P d)
    (hok : d.queueSuccessors g ranking rank emitted = .ok d') : P d' := by
  refine foldlM_induction (fun d id hid d' h hok ↦ ?_) h hok
  cases hn : d.graph.node? id with
  | none =>
    rw [hn] at hok
    exact Except.ok.inj hok ▸ h
  | some n =>
    rw [hn] at hok
    -- the graph stays, so the node that is offered stays the same
    refine (foldlM_induction (P := fun d' ↦ P d' ∧ d'.graph = d.graph)
      (fun d₁ other hother d₂ h₁ hok₁ ↦ ?_) ⟨h, rfl⟩ hok).1
    unfold offer at hok₁
    split at hok₁
    · exact Except.ok.inj hok₁ ▸ h₁
    · rename_i hgo
      rw [Bool.or_eq_true, not_or, decide_eq_true_iff, Bool.not_eq_true', Bool.not_eq_false,
        StateSet.meets_iff] at hgo
      split at hok₁
      · cases hok₁
      · rename_i hdone
        rw [List.contains_iff_mem] at hdone
        rw [← Except.ok.inj hok₁]
        exact ⟨hoffer d₁ other hother id hid n _ (h₁.2 ▸ hn) hgo.1 hdone hgo.2 h₁.1, h₁.2⟩

theorem queueSuccessors_induction {P : Decomposition sp → Prop} {rank : Nat} {emitted : List Nat}
    (hoffer : ∀ (d : Decomposition sp), ∀ other ∈ ranking.nodes, ∀ id ∈ emitted, ∀ n cells,
      d.graph.node? id = some n → other.rank ≠ rank →
      (∃ i ∈ g.strip (g.image n.states n.transitions), i ∈ other.states) → P d →
        P ((d.enqueue g other fun item ↦
          item.offer (g.strip (g.image n.states n.transitions)) id).report
            (.successorQueued id other.rank cells)))
    {d d' : Decomposition sp} (h : P d)
    (hok : d.queueSuccessors g ranking rank emitted = .ok d') : P d' :=
  queueSuccessors_induction_of_not_done
    (fun d other hother id hid n cells hn hne _ ↦ hoffer d other hother id hid n cells hn hne) h hok

/-- Queueing successors leaves the graph as it is. -/
theorem graph_queueSuccessors {rank : Nat} {emitted : List Nat} {d d' : Decomposition sp}
    (hok : d.queueSuccessors g ranking rank emitted = .ok d') : d'.graph = d.graph :=
  queueSuccessors_induction (P := fun d' ↦ d'.graph = d.graph)
    (fun _ _ _ _ _ _ _ _ _ _ h ↦ h) rfl hok

/-- What holds of the initial node alone, and is kept when initial states are made start points,
holds of the start. -/
theorem start_induction {P : Decomposition sp → Prop}
    (hempty : P
      ⟨Graph.empty.addNode ⟨Graph.initialId, none, g.initial, ∅, [], .initial⟩, [], [], []⟩)
    (henqueue : ∀ (d : Decomposition sp), ∀ node ∈ ranking.nodes, P d →
      P (d.enqueue g node fun item ↦ item.addStarts (initialStarts g item) Graph.initialId)) :
    P (start g ranking) := by
  have key : ∀ (nodes : List (RankNode sp)) (d : Decomposition sp),
      (∀ n ∈ nodes, n ∈ ranking.nodes) → P d →
      P (nodes.foldl (fun d node ↦ d.enqueue g node fun item ↦
        item.addStarts (initialStarts g item) Graph.initialId) d) := by
    intro nodes
    induction nodes with
    | nil => exact fun _ _ h ↦ h
    | cons node nodes ih =>
      exact fun d hnodes h ↦ ih _ (fun n hn ↦ hnodes n (List.mem_cons_of_mem _ hn))
        (henqueue d node (hnodes node List.mem_cons_self) h)
  refine key _ _ (fun n hn ↦ ?_) hempty
  obtain ⟨r, -, hr⟩ := List.mem_filterMap.mp hn
  exact (Ranking.mem_of_node?_eq_some hr).1

/-! ## Offering successors -/

section Offer

variable (h : g.Shaped) (ho : g.OfStates) (hr : g.ranking? = some ranking)

include h ho hr

variable {rank : Nat}

/-- What a decomposition keeps while successors are offered. -/
structure Keeps (g : Game sp) (ranking : Ranking sp) (rank : Nat) (d d' : Decomposition sp) :
    Prop where
  graph_eq : d'.graph = d.graph
  queued : d'.Queued g ranking rank
  awaits : ∀ id i, d.Awaits id i → d'.Awaits id i

omit h ho hr in
theorem Keeps.trans {d d' d'' : Decomposition sp} (h : Keeps g ranking rank d d')
    (h' : Keeps g ranking rank d' d'') : Keeps g ranking rank d d'' where
  graph_eq := h'.graph_eq.trans h.graph_eq
  queued := h'.queued
  awaits := fun id i hi ↦ h'.awaits id i (h.awaits id i hi)

omit ho in
/-- The other ranks that states of a rank lie in are lower ones. -/
theorem rank_lt_of_meets {states : StateSet sp} (hsub : ∀ i ∈ states, i ∈ g.rank rank)
    {other : RankNode sp} (hother : other ∈ ranking.nodes) (hne : other.rank ≠ rank)
    (hmeets : ∃ i ∈ states, i ∈ other.states) : other.rank < rank := by
  obtain ⟨j, hj, hjs⟩ := hmeets
  obtain ⟨q, hq, hjq⟩ := Game.Shaped.exists_level (hsub j hj)
  rw [Ranking.states_eq h hr hother] at hjs
  have heq := h.level_disjoint hjs hjq
  omega

/-- **Offering states to one rank.** -/
theorem offer_eq_ok (hq : d.Queued g ranking rank) {image : StateSet sp}
    (himage : image.Untagged g.marker) (hsub : ∀ i ∈ image, i ∈ g.rank rank) (id : Nat)
    {other : RankNode sp} (hother : other ∈ ranking.nodes) :
    ∃ d', offer g rank id image d other = .ok d' ∧ Keeps g ranking rank d d' ∧
      (g.RowsCover → other.rank ≠ rank → ∀ i ∈ image, i ∈ other.states → d'.Awaits id i) := by
  unfold offer
  split
  · rename_i hskip
    rw [Bool.or_eq_true, decide_eq_true_iff, Bool.not_eq_true', ← Bool.not_eq_true,
      StateSet.meets_iff] at hskip
    refine ⟨d, rfl, ⟨rfl, hq, fun _ _ hi ↦ hi⟩, fun _ hne i hi his ↦ ?_⟩
    exact absurd ⟨i, hi, his⟩ (hskip.resolve_left hne)
  · rename_i hgo
    rw [Bool.or_eq_true, not_or, decide_eq_true_iff, Bool.not_eq_true', Bool.not_eq_false,
      StateSet.meets_iff] at hgo
    have hlt := rank_lt_of_meets h hr hsub hother hgo.1 hgo.2
    have hdone : ¬d.done.contains other.rank = true := fun hmem ↦
      absurd (hq.done _ (List.contains_iff_mem.mp hmem)) (Nat.not_le.mpr hlt)
    rw [if_neg hdone]
    obtain ⟨hqueued, hawaits, item, hfits, hnode, hmem⟩ := hq.enqueue h hr
      (fun item ↦ item.offer image id) hother hlt (fun _ ↦ rfl)
      (fun item hf _ ↦ Item.Fits.offer ho hf himage id)
      (fun item _ _ hi ↦ Item.awaits_addStarts hi)
    refine ⟨_, rfl, ⟨rfl, ⟨hqueued.sorted, hqueued.below, hqueued.fits, hqueued.mem_nodes,
      hqueued.done⟩, hawaits⟩, fun hcover _ i hi his ↦ ⟨item.offer image id, hmem, ?_⟩⟩
    refine Item.awaits_offer hfits h hcover hi ?_
    rwa [hnode, ← Ranking.states_eq h hr hother]

private theorem offers_eq_ok (hq : d.Queued g ranking rank) {image : StateSet sp}
    (himage : image.Untagged g.marker) (hsub : ∀ i ∈ image, i ∈ g.rank rank) (id : Nat)
    {others : List (RankNode sp)} (hothers : ∀ other ∈ others, other ∈ ranking.nodes) :
    ∃ d', others.foldlM (offer g rank id image) d = .ok d' ∧ Keeps g ranking rank d d' ∧
      (g.RowsCover → ∀ other ∈ others, other.rank ≠ rank → ∀ i ∈ image, i ∈ other.states →
        d'.Awaits id i) := by
  induction others generalizing d with
  | nil => exact ⟨d, rfl, ⟨rfl, hq, fun _ _ hi ↦ hi⟩, fun _ _ ho ↦ absurd ho List.not_mem_nil⟩
  | cons other others ih =>
    obtain ⟨d₁, hok₁, hkeeps₁, hoffered₁⟩ :=
      offer_eq_ok h ho hr hq himage hsub id (hothers other List.mem_cons_self)
    obtain ⟨d₂, hok₂, hkeeps₂, hoffered₂⟩ :=
      ih hkeeps₁.queued fun o ho' ↦ hothers o (List.mem_cons_of_mem _ ho')
    refine ⟨d₂, ?_, hkeeps₁.trans hkeeps₂, fun hcover o ho' hne i hi his ↦ ?_⟩
    · rw [List.foldlM_cons, hok₁]
      exact hok₂
    · rcases List.mem_cons.mp ho' with rfl | ho'
      · exact hkeeps₂.awaits id i (hoffered₁ hcover hne i hi his)
      · exact hoffered₂ hcover o ho' hne i hi his

omit h ho hr in
private theorem queueSuccessors_cons (id : Nat) (emitted : List Nat) :
    queueSuccessors g d ranking rank (id :: emitted)
      = ((d.graph.node? id).elim (Except.ok d) fun n ↦
          ranking.nodes.foldlM (offer g rank id (g.strip (g.image n.states n.transitions))) d) >>=
        fun d ↦ queueSuccessors g d ranking rank emitted := by
  rw [queueSuccessors, List.foldlM_cons]
  cases d.graph.node? id with
  | none => rfl
  | some n => rfl

/-- **Offering what new nodes lead to**: it never fails, and all of it awaits its rank then. -/
theorem queueSuccessors_eq_ok (hq : d.Queued g ranking rank) {emitted : List Nat}
    (hsub : ∀ id ∈ emitted, ∀ n, d.graph.node? id = some n →
      ∀ i ∈ g.strip (g.image n.states n.transitions), i ∈ g.rank rank) :
    ∃ d', queueSuccessors g d ranking rank emitted = .ok d' ∧ Keeps g ranking rank d d' ∧
      (g.RowsCover → ∀ id ∈ emitted, ∀ n, d.graph.node? id = some n →
        ∀ other ∈ ranking.nodes, other.rank ≠ rank →
        ∀ i ∈ g.strip (g.image n.states n.transitions), i ∈ other.states → d'.Awaits id i) := by
  induction emitted generalizing d with
  | nil => exact ⟨d, rfl, ⟨rfl, hq, fun _ _ hi ↦ hi⟩, fun _ _ hid ↦ absurd hid List.not_mem_nil⟩
  | cons id emitted ih =>
    obtain ⟨d₁, hok₁, hkeeps₁, hoffered₁⟩ : ∃ d₁, ((d.graph.node? id).elim (Except.ok d) fun n ↦
        ranking.nodes.foldlM (offer g rank id (g.strip (g.image n.states n.transitions))) d)
          = Except.ok d₁ ∧
        Keeps g ranking rank d d₁ ∧ (g.RowsCover → ∀ n, d.graph.node? id = some n →
          ∀ other ∈ ranking.nodes, other.rank ≠ rank →
          ∀ i ∈ g.strip (g.image n.states n.transitions), i ∈ other.states → d₁.Awaits id i) := by
      cases hn : d.graph.node? id with
      | none => exact ⟨d, rfl, ⟨rfl, hq, fun _ _ hi ↦ hi⟩, fun _ _ hn' ↦ by cases hn'⟩
      | some n =>
        obtain ⟨d₁, hok, hkeeps, hoffered⟩ := offers_eq_ok h ho hr hq
          (h.untagged_strip (Game.current_image n.states n.transitions))
          (hsub id List.mem_cons_self n hn) id (fun _ hother ↦ hother)
        refine ⟨d₁, hok, hkeeps, fun hcover m hm ↦ ?_⟩
        obtain rfl : n = m := Option.some.inj hm
        exact hoffered hcover
    obtain ⟨d₂, hok₂, hkeeps₂, hoffered₂⟩ := ih hkeeps₁.queued fun id' hid' n hn ↦
      hsub id' (List.mem_cons_of_mem _ hid') n (by rwa [hkeeps₁.graph_eq] at hn)
    refine ⟨d₂, ?_, hkeeps₁.trans hkeeps₂, fun hcover id' hid' n hn other hother hne i hi his ↦ ?_⟩
    · rw [queueSuccessors_cons, hok₁]
      exact hok₂
    · rcases List.mem_cons.mp hid' with rfl | hid'
      · exact hkeeps₂.awaits _ i (hoffered₁ hcover n hn other hother hne i hi his)
      · exact hoffered₂ hcover id' hid' n (by rwa [hkeeps₁.graph_eq]) other hother hne i hi his

end Offer

end JusticeViolation.Decomposition

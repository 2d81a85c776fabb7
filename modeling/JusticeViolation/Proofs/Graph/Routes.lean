import JusticeViolation.Proofs.Graph.Quotient
import Mathlib.Data.Set.Finite.Basic
import Mathlib.Order.WellFounded

/-!
# Routes and circles

A route is the list of the nodes that edges lead through, so different ways from one node to another
are different lists. A graph is *acyclic* if no edges lead from a node back to it. Then the nodes of
a finite set have a first one among them, where an induction along the edges can begin; and where
every node has a single parent, there is a single route. Elsewhere a circle on the way from one node
to another makes any number of routes between the two.

Folding a node into its parent is the one change that could close a circle: a second route from the
parent to the child would begin and end in the same node then. It closes none if the edge between
the two is the only route.
-/

namespace JusticeViolation.Graph

variable {sp : Space} {graph graph' : Graph sp}

/-! ## Routes -/

/-- A way along edges from `a` to a node: the nodes that it leads through before, the latest
first. -/
inductive Route (graph : Graph sp) (a : Nat) : Nat → List Nat → Prop
  | here : Route graph a a []
  | step {b c : Nat} {l : List Nat} : Route graph a b l → graph.Joins b c → Route graph a c (b :: l)

theorem Route.reaches {a b : Nat} {l : List Nat} (h : graph.Route a b l) : graph.Reaches a b := by
  induction h with
  | here => exact .refl
  | step _ hbc ih => exact ih.tail hbc

theorem Route.append {a b c : Nat} {l l' : List Nat} (h : graph.Route a b l)
    (h' : graph.Route b c l') : graph.Route a c (l' ++ l) := by
  induction h' with
  | here => exact h
  | step _ hcd ih => exact ih.step hcd

/-- What a route leads through lies between its ends. -/
theorem Route.reaches_of_mem {a b k : Nat} {l : List Nat} (h : graph.Route a b l) (hk : k ∈ l) :
    graph.Reaches a k ∧ graph.Reaches k b := by
  induction h with
  | here => exact absurd hk List.not_mem_nil
  | @step b c l hl hbc ih =>
    rcases List.mem_cons.mp hk with rfl | hk
    · exact ⟨hl.reaches, .single hbc⟩
    · exact ⟨(ih hk).1, (ih hk).2.tail hbc⟩

theorem Reaches.exists_route {a b : Nat} (h : graph.Reaches a b) : ∃ l, graph.Route a b l := by
  induction h with
  | refl => exact ⟨[], .here⟩
  | @tail b c _ hbc ih =>
    obtain ⟨l, hl⟩ := ih
    exact ⟨b :: l, hl.step hbc⟩

theorem Route.single {a b : Nat} (h : graph.Joins a b) : graph.Route a b [a] := Route.here.step h

/-- There is at most one route from one node to another. -/
def AtMostOne (graph : Graph sp) (a b : Nat) : Prop :=
  ∀ l l', graph.Route a b l → graph.Route a b l' → l = l'

/-- Where the only route is an edge, every route arrives from its source. -/
theorem AtMostOne.eq_of_joins {a b c : Nat} (h : graph.AtMostOne a b) (hab : graph.Joins a b)
    (hac : graph.Reaches a c) (hcb : graph.Joins c b) : c = a := by
  obtain ⟨l, hl⟩ := hac.exists_route
  exact (List.cons.inj (h _ _ (hl.step hcb) (.single hab))).1

/-! ## Circles -/

/-- No edges lead from a node back to it. -/
def Acyclic (graph : Graph sp) : Prop := ∀ a, ¬Relation.TransGen graph.Joins a a

/-- Numbers that rise along every edge leave no room for a circle. -/
theorem acyclic_of_lt (h : ∀ a b, graph.Joins a b → a < b) : graph.Acyclic := by
  have hlt : ∀ a b, Relation.TransGen graph.Joins a b → a < b := fun a b hab ↦ by
    induction hab with
    | single hab => exact h _ _ hab
    | tail _ hbc ih => exact ih.trans (h _ _ hbc)
  exact fun a ha ↦ Nat.lt_irrefl a (hlt a a ha)

/-- **Among finitely many nodes there is a first one**, which no other leads to, if no edges lead
from one of them back to it. -/
theorem exists_first {s : Set Nat} (hfin : s.Finite) (hs : s.Nonempty)
    (h : ∀ a ∈ s, ¬Relation.TransGen graph.Joins a a) : ∃ a ∈ s, ∀ b ∈ s, ¬graph.Joins b a := by
  have hfinite : Finite s := hfin.to_subtype
  have htrans : IsTrans s fun a b ↦ Relation.TransGen graph.Joins a.1 b.1 :=
    ⟨fun _ _ _ hab hbc ↦ hab.trans hbc⟩
  have hirrefl : Std.Irrefl fun a b : s ↦ Relation.TransGen graph.Joins a.1 b.1 :=
    ⟨fun a ↦ h a.1 a.2⟩
  have hwf := Finite.wellFounded_of_trans_of_irrefl
    fun a b : s ↦ Relation.TransGen graph.Joins a.1 b.1
  obtain ⟨a, ha⟩ := hs
  obtain ⟨first, -, hfirst⟩ := hwf.has_min Set.univ ⟨⟨a, ha⟩, trivial⟩
  exact ⟨first.1, first.2, fun b hb hjoins ↦ hfirst ⟨b, hb⟩ trivial (.single hjoins)⟩

/-- Some way from `a` to `b` meets a circle. -/
def CircleBetween (graph : Graph sp) (a b : Nat) : Prop :=
  ∃ c, graph.Reaches a c ∧ Relation.TransGen graph.Joins c c ∧ graph.Reaches c b

namespace CircleBetween

variable {a b c : Nat}

theorem reaches (h : graph.CircleBetween a b) : graph.Reaches a b := by
  obtain ⟨c, hac, -, hcb⟩ := h
  exact hac.trans hcb

theorem tail (h : graph.CircleBetween a b) (hbc : graph.Joins b c) : graph.CircleBetween a c := by
  obtain ⟨c, hac, hcc, hcb⟩ := h
  exact ⟨c, hac, hcc, hcb.tail hbc⟩

/-- Behind a circle there is no first node: the way arrives from a parent that it holds of too. -/
theorem exists_parent (h : graph.CircleBetween a b) :
    ∃ p, graph.CircleBetween a p ∧ graph.Joins p b := by
  obtain ⟨c, hac, hcc, hcb⟩ := h
  obtain ⟨p, hcp, hpb⟩ := Relation.TransGen.tail'_iff.mp (hcc.trans_left hcb)
  exact ⟨p, ⟨c, hac, hcc, hcp⟩, hpb⟩

/-- Going round the circle or not makes two routes. -/
theorem exists_ne (h : graph.CircleBetween a b) :
    ∃ l l', graph.Route a b l ∧ graph.Route a b l' ∧ l ≠ l' := by
  obtain ⟨c, hac, hcc, hcb⟩ := h
  obtain ⟨p, hcp, hpc⟩ := Relation.TransGen.tail'_iff.mp hcc
  obtain ⟨before, hbefore⟩ := hac.exists_route
  obtain ⟨round, hround⟩ := Reaches.exists_route hcp
  obtain ⟨after, hafter⟩ := hcb.exists_route
  refine ⟨_, _, hbefore.append hafter, (hbefore.append (hround.step hpc)).append hafter,
    fun heq ↦ ?_⟩
  have hlength := congrArg List.length (List.append_cancel_left heq)
  rw [List.length_append, List.length_cons] at hlength
  omega

end CircleBetween

namespace Acyclic

variable (h : graph.Acyclic)

include h

/-- What is joined does not lead back. -/
theorem not_reaches {a b : Nat} (hab : graph.Joins a b) : ¬graph.Reaches b a := fun hba ↦
  h a (.head' hab hba)

theorem not_circleBetween (a b : Nat) : ¬graph.CircleBetween a b := fun ⟨c, _, hcc, _⟩ ↦ h c hcc

theorem eq_of_reaches {a b : Nat} (hab : graph.Reaches a b) (hba : graph.Reaches b a) : a = b := by
  rcases Relation.reflTransGen_iff_eq_or_transGen.mp hab with heq | hlong
  · exact heq.symm
  · exact absurd (hlong.trans_left hba) (h a)

/-- With single parents there are single routes. -/
theorem atMostOne (hparent : ∀ a b c, graph.Joins a c → graph.Joins b c → a = b) (a b : Nat) :
    graph.AtMostOne a b := by
  intro l l' hl hl'
  induction hl generalizing l' with
  | here =>
    cases hl' with
    | here => rfl
    | step hl' hjoins => exact absurd hl'.reaches (h.not_reaches hjoins)
  | @step b c l hl hbc ih =>
    cases hl' with
    | here => exact absurd hl.reaches (h.not_reaches hbc)
    | @step b' _ l' hl' hbc' =>
      obtain rfl := hparent b b' c hbc hbc'
      rw [ih l' hl']

end Acyclic

/-! ## Folding along the only route -/

section Fold

variable {parent child : Nat}
  (hjoins : ∀ a b, graph'.Joins a b ↔ a ≠ b ∧ ∃ a' b', graph.Joins a' b' ∧
    foldInto parent child a' = a ∧ foldInto parent child b' = b)

include hjoins

/-- Every new edge is an old one, unless one of its ends was at the child. -/
private theorem joins_cases {a b : Nat} (hab : graph'.Joins a b) :
    graph.Joins a b ∨ (graph.Joins a child ∧ b = parent) ∨ (a = parent ∧ graph.Joins child b) := by
  obtain ⟨hne, a', b', hab', rfl, rfl⟩ := (hjoins a b).mp hab
  unfold foldInto at hne ⊢
  split
  · rename_i hac
    split
    · rename_i hbc
      rw [if_pos hac, if_pos hbc] at hne
      exact absurd rfl hne
    · exact Or.inr (Or.inr ⟨rfl, hac ▸ hab'⟩)
  · split
    · rename_i hbc
      exact Or.inr (Or.inl ⟨hbc ▸ hab', rfl⟩)
    · exact Or.inl hab'

/-- New ways are old ones, unless they lead to the child and go on from the parent. -/
private theorem reaches_cases (hedge : graph.Joins parent child) {a b : Nat}
    (hab : graph'.Reaches a b) :
    graph.Reaches a b ∨ (graph.Reaches a child ∧ graph.Reaches parent b) := by
  induction hab with
  | refl => exact Or.inl .refl
  | tail _ hbc ih =>
    rcases joins_cases hjoins hbc with hold | ⟨hchild, rfl⟩ | ⟨rfl, hchild⟩
    · exact ih.imp (·.tail hold) fun ⟨hac, hpb⟩ ↦ ⟨hac, hpb.tail hold⟩
    · exact Or.inr ⟨ih.elim (·.tail hchild) (·.1), .refl⟩
    · exact Or.inl (ih.elim (fun hap ↦ (hap.tail hedge).tail hchild) fun ⟨hac, _⟩ ↦
        hac.tail hchild)

/-- **Folding along the only route closes no circle.** -/
theorem Acyclic.foldInto (h : graph.Acyclic) (hedge : graph.Joins parent child)
    (hone : graph.AtMostOne parent child) : graph'.Acyclic := by
  -- a way on from a child of the parent does not arrive at the child of the only route
  have hapart : ∀ {a b : Nat}, graph.Reaches parent a → graph.Joins a b → b ≠ child →
      ¬graph.Reaches b child := fun {a b} ha hab hne hb ↦ by
    obtain heq | ⟨c, hbc, hc⟩ := Relation.ReflTransGen.cases_tail hb
    · exact hne heq.symm
    · obtain rfl := hone.eq_of_joins hedge ((ha.tail hab).trans hbc) hc
      exact h c (.trans_right ha (.head' hab hbc))
  intro a ha
  obtain ⟨b, hab, hba⟩ := Relation.TransGen.head'_iff.mp ha
  have hchild : ∀ {a b : Nat}, graph'.Joins a b → b ≠ child := fun hab heq ↦ by
    obtain ⟨-, a', b', -, -, hb'⟩ := (hjoins _ _).mp hab
    rw [heq] at hb'
    unfold Graph.foldInto at hb'
    split at hb'
    · exact h parent (.single (hb' ▸ hedge))
    · rename_i hne
      exact hne hb'
  have hback := reaches_cases hjoins hedge hba
  rcases joins_cases hjoins hab with hold | ⟨hac, rfl⟩ | ⟨rfl, hcb⟩
  · rcases hback with hba | ⟨hbc, hpa⟩
    · exact h.not_reaches hold hba
    · exact hapart hpa hold (hchild hab) hbc
  · -- the child has no other parent that the parent leads to
    obtain ⟨hne, -⟩ := (hjoins _ _).mp hab
    exact hne (hone.eq_of_joins hedge (hback.elim (fun hpa ↦ hpa) (·.2)) hac)
  · rcases hback with hbp | ⟨hbc, -⟩
    · exact h.not_reaches hcb (hbp.tail hedge)
    · exact h.not_reaches hcb hbc

end Fold

/-- **Renaming closes no circle** where different nodes get different names. -/
theorem Acyclic.rename {f : Nat → Nat} (h : graph.Acyclic) (hs : graph.Simple)
    (hinj : ∀ n ∈ graph.nodes, ∀ m ∈ graph.nodes, f n.id = f m.id → n.id = m.id)
    (hjoins : ∀ a b, graph'.Joins a b → ∃ a' b', graph.Joins a' b' ∧ f a' = a ∧ f b' = b) :
    graph'.Acyclic := by
  have hlift : ∀ a b, Relation.TransGen graph'.Joins a b → ∃ n ∈ graph.nodes, ∃ m ∈ graph.nodes,
      f n.id = a ∧ f m.id = b ∧ Relation.TransGen graph.Joins n.id m.id := by
    intro a b hab
    induction hab with
    | single hab =>
      obtain ⟨_, _, hjoin, rfl, rfl⟩ := hjoins _ _ hab
      obtain ⟨⟨n, hn, rfl⟩, ⟨m, hm, rfl⟩, -⟩ := hs.ends _ _ hjoin
      exact ⟨n, hn, m, hm, rfl, rfl, .single hjoin⟩
    | tail _ hbc ih =>
      obtain ⟨n, hn, m, hm, hna, hmb, hnm⟩ := ih
      obtain ⟨_, _, hjoin, rfl, rfl⟩ := hjoins _ _ hbc
      obtain ⟨⟨m', hm', rfl⟩, ⟨k, hk, rfl⟩, -⟩ := hs.ends _ _ hjoin
      exact ⟨n, hn, k, hk, hna, rfl, (hinj m hm m' hm' hmb ▸ hnm).tail hjoin⟩
  intro a ha
  obtain ⟨n, hn, m, hm, hna, hma, hnm⟩ := hlift a a ha
  rw [hinj n hn m hm (hna.trans hma.symm)] at hnm
  exact h m.id hnm

end JusticeViolation.Graph

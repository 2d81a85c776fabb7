import JusticeViolation.Construction
import JusticeViolation.Proofs.Fact
import JusticeViolation.Proofs.Game.Shape

/-!
# Checked evaluation

Where the construction looks up a row, a column, a node or a count, its definitions answer some
default if there is nothing to be found. In a *checked* evaluation such a look-up fails instead, and
so do a remainder by zero and a difference below zero. A loop, too, fails when it has taken as many
rounds as it may; so a checked evaluation is a run that is watched for that many rounds, whether it
would ever end or not.

That the construction stays in range is then an equation: the checked evaluation gives what the
definitions give. This module has the look-ups, and the checked form of what is asked of the
registry, where it holds without any condition.
-/

namespace JusticeViolation

/-- Why a checked evaluation has no result. -/
inductive Stop
  /-- A position at which a list holds nothing, a key that a table does not have, a remainder by
  zero, or a difference below zero. -/
  | outOfRange
  /-- A loop has taken as many rounds as it may. -/
  | unfinished
  /-- The construction has broken off by itself. -/
  | broken (halt : Halt)

/-- A checked evaluation. -/
abbrev Checked := Except Stop

namespace Checked

variable {α β : Type}

/-- What is looked for, if it is there. -/
def found : Option α → Checked α
  | some x => .ok x
  | none => .error .outOfRange

/-- What a list holds at a position. -/
def lookup (xs : List α) (i : Nat) : Checked α := found xs[i]?

/-- A remainder. -/
def remainder (a b : Nat) : Checked Nat := if b = 0 then .error .outOfRange else .ok (a % b)

/-- A difference. -/
def minus (a b : Nat) : Checked Nat := if a < b then .error .outOfRange else .ok (a - b)

/-- A list up to a position. -/
def takeTo (xs : List α) (i : Nat) : Checked (List α) :=
  if i ≤ xs.length then .ok (xs.take i) else .error .outOfRange

/-- A list from a position on. -/
def dropTo (xs : List α) (i : Nat) : Checked (List α) :=
  if i ≤ xs.length then .ok (xs.drop i) else .error .outOfRange

@[simp] theorem ok_bind (a : α) (f : α → Checked β) :
    ((Except.ok a : Checked α) >>= f) = f a := rfl

@[simp] theorem pure_eq_ok (a : α) : (pure a : Checked α) = .ok a := rfl

theorem lookup_eq_ok {xs : List α} {i : Nat} {x : α} (h : xs[i]? = some x) :
    lookup xs i = .ok x := by
  rw [lookup, h, found]

theorem lookup_getD {xs : List α} {i : Nat} (h : i < xs.length) (d : α) :
    lookup xs i = .ok (xs.getD i d) :=
  lookup_eq_ok (by rw [List.getD_eq_getElem _ _ h, List.getElem?_eq_getElem h])

theorem remainder_of_pos {a b : Nat} (h : 0 < b) : remainder a b = .ok (a % b) :=
  if_neg (Nat.ne_of_gt h)

theorem minus_of_le {a b : Nat} (h : b ≤ a) : minus a b = .ok (a - b) :=
  if_neg (Nat.not_lt.mpr h)

theorem takeTo_of_le {xs : List α} {i : Nat} (h : i ≤ xs.length) : takeTo xs i = .ok (xs.take i) :=
  if_pos h

theorem dropTo_of_le {xs : List α} {i : Nat} (h : i ≤ xs.length) : dropTo xs i = .ok (xs.drop i) :=
  if_pos h

theorem mapError_bind {ε : Type} (x : Except ε α) (h : ε → Stop) (f : α → β) :
    ((x.mapError h : Checked α) >>= fun a ↦ pure (f a)) = (x.map f).mapError h := by
  cases x <;> rfl

/-! ## Loops over lists -/

theorem mapM_eq_ok {f : α → Checked β} {h : α → β} {as : List α}
    (hf : ∀ a ∈ as, f a = .ok (h a)) : as.mapM f = .ok (as.map h) := by
  induction as with
  | nil => rfl
  | cons a as ih =>
    rw [List.mapM_cons, hf a List.mem_cons_self, ok_bind,
      ih fun b hb ↦ hf b (List.mem_cons_of_mem a hb)]
    rfl

theorem findSomeM?_eq_ok {f : α → Checked (Option β)} {h : α → Option β} {as : List α}
    (hf : ∀ a ∈ as, f a = .ok (h a)) : as.findSomeM? f = .ok (as.findSome? h) := by
  induction as with
  | nil => rfl
  | cons a as ih =>
    rw [List.findSomeM?_cons, hf a List.mem_cons_self, ok_bind, List.findSome?_cons,
      ih fun b hb ↦ hf b (List.mem_cons_of_mem a hb)]
    cases h a <;> rfl

theorem findSomeM?_eq_find? {f : α → Checked (Option α)} {p : α → Bool} {as : List α}
    (hf : ∀ a ∈ as, f a = .ok (if p a then some a else none)) :
    as.findSomeM? f = .ok (as.find? p) := by
  rw [findSomeM?_eq_ok hf, List.find?_eq_findSome?_guard]
  rfl

theorem foldlM_eq_ok {f : β → α → Checked β} {h : β → α → β} {as : List α}
    (hf : ∀ b, ∀ a ∈ as, f b a = .ok (h b a)) (b : β) : as.foldlM f b = .ok (as.foldl h b) := by
  induction as generalizing b with
  | nil => rfl
  | cons a as ih =>
    rw [List.foldlM_cons, hf b a List.mem_cons_self, ok_bind, List.foldl_cons]
    exact ih (fun b a ha ↦ hf b a (List.mem_cons_of_mem _ ha)) _

theorem foldlM_mapError {ε ε' : Type} {f : β → α → Except ε β} {f' : β → α → Except ε' β}
    {h : ε → ε'} {as : List α} (hf : ∀ b, ∀ a ∈ as, f' b a = (f b a).mapError h) (b : β) :
    as.foldlM f' b = (as.foldlM f b).mapError h := by
  induction as generalizing b with
  | nil => rfl
  | cons a as ih =>
    rw [List.foldlM_cons, hf b a List.mem_cons_self, List.foldlM_cons]
    cases f b a with
    | error e => rfl
    | ok b => exact ih (fun b a ha ↦ hf b a (List.mem_cons_of_mem _ ha)) b

/-- A loop over the members of a list with their positions is one over the positions. -/
theorem map_zipIdx_eq (f : α × Nat → β) (as : List α) (d : α) :
    as.zipIdx.map f = (List.range as.length).map fun i ↦ f (as.getD i d, i) := by
  refine List.ext_getElem ?_ fun i h h' ↦ ?_
  · rw [List.length_map, List.length_zipIdx, List.length_map, List.length_range]
  · have hi : i < as.length := by rwa [List.length_map, List.length_zipIdx] at h
    rw [List.getElem_map, List.getElem_zipIdx, List.getElem_map, List.getElem_range,
      List.getD_eq_getElem _ _ hi, Nat.zero_add]

end Checked

open Checked

variable {sp : Space}

/-! ## Copies of variables -/

/-- The declared variable behind a copy. -/
def Registry.checkedDeclaration (r : Registry) (x : VarId) : Checked Variable :=
  lookup r.declared (x.index / 2)

theorem Registry.exists_declaration {r : Registry} {x : VarId} (hx : x ∈ r.ids) :
    ∃ v, r.declaration? x = some v ∧ r.checkedDeclaration x = .ok v := by
  have hlt : x.index / 2 < r.declared.length := by
    rw [Registry.mem_ids, Registry.length] at hx
    omega
  exact ⟨_, List.getElem?_eq_getElem hlt, lookup_eq_ok (List.getElem?_eq_getElem hlt)⟩

/-- The number of values of a copy. -/
def Space.checkedSize (sp : Space) (x : VarId) : Checked Nat := lookup sp.sizes x.index

theorem Space.checkedSize_eq {x : VarId} (hx : x ∈ sp.registry.ids) :
    sp.checkedSize x = .ok (sp.domainSize x) := by
  rw [Registry.mem_ids, ← sp.length_sizes] at hx
  exact lookup_getD hx 1

namespace StateSet

variable (s : StateSet sp)

/-- The fact about one copy. -/
def checkedFact? (x : VarId) : Checked (Option Fact) := do
  let size ← sp.checkedSize x
  match (List.range size).find? fun value ↦ s ∩ literal x value == s with
  | none => return none
  | some value =>
    let v ← sp.registry.checkedDeclaration x
    let valueName ← lookup v.values value
    return some ⟨if x.isPrimed then v.primedName else v.name, valueName⟩

/-- The facts of a set. -/
def checkedFacts (skip : List VarId) : Checked (List Fact) :=
  if s.isEmpty then return []
  else do
    let facts ← (s.support.filter fun x ↦ !x.isPrimed && !skip.contains x).mapM s.checkedFact?
    return facts.filterMap id

theorem checkedFact?_eq {x : VarId} (hx : x ∈ sp.registry.ids) :
    s.checkedFact? x = .ok ((s.fixedValue? x).map fun value ↦
      ⟨sp.registry.name x, sp.registry.valueName x value⟩) := by
  obtain ⟨v, hv, hchecked⟩ := Registry.exists_declaration hx
  have hvalues : sp.registry.values x = v.values := by
    rw [Registry.values, hv]
  rw [checkedFact?, Space.checkedSize_eq hx, ok_bind, fixedValue?]
  split
  · rename_i hnone
    rw [hnone]
    rfl
  · rename_i value hfind
    have hlt : value < v.values.length := by
      rw [← hvalues, Space.length_values hx]
      exact List.mem_range.mp (List.mem_of_find?_eq_some hfind)
    have hname : (if x.isPrimed then v.primedName else v.name) = sp.registry.name x := by
      rw [Registry.name, hv]
    rw [hfind, hchecked, ok_bind, lookup_getD hlt "", ok_bind, hname, ← hvalues]
    rfl

/-- **Facts are found in range.** -/
theorem checkedFacts_eq (skip : List VarId) : s.checkedFacts skip = .ok (s.facts skip) := by
  rw [checkedFacts, facts]
  split
  · rfl
  · have hfacts : ∀ x ∈ s.support.filter fun x ↦ !x.isPrimed && !skip.contains x,
        s.checkedFact? x = .ok _ := fun x hx ↦
      s.checkedFact?_eq (List.mem_filter.mp (List.mem_filter.mp hx).1).1
    rw [mapM_eq_ok hfacts, ok_bind, pure_eq_ok, List.filterMap_map]
    rfl

end StateSet

namespace Game

variable (g : Game sp)

/-- Keep, for every state, the choices with the least available value of `x`. -/
def checkedKeepLeast (choices : StateSet sp) (x : VarId) : Checked (StateSet sp) := do
  let size ← sp.checkedSize x
  return ((List.range size).foldl (fun found value ↦
      let part := (choices ∩ .literal x value) \ found.2
      if part.isEmpty then found else (found.1 ∪ part, found.2 ∪ g.domain part))
    ((∅, ∅) : StateSet sp × StateSet sp)).1

/-- Keep one choice of every state. -/
def checkedDeterminize (choices : StateSet sp) : Checked (StateSet sp) :=
  g.envNextIds.foldlM g.checkedKeepLeast choices

/-- **One choice is kept in range.** -/
theorem checkedDeterminize_eq (choices : StateSet sp) :
    g.checkedDeterminize choices = .ok (g.determinize choices) := by
  refine foldlM_eq_ok (fun choices x hx ↦ ?_) choices
  rw [checkedKeepLeast, Space.checkedSize_eq (sp.registry.mem_roleIds hx).1]
  rfl

/-! ## The shape of a game -/

/-- A fault of the row marker. -/
def checkedMarkerFault? : Checked (Option ShapeFault) :=
  if sp.registry.length ≤ g.marker.index || g.marker.isPrimed then
    return some (.markerNotCurrent g.marker)
  else do
    let v ← sp.registry.checkedDeclaration g.marker
    if v.role != .aux || v.size != g.numRows then return some (.markerUnfit v.name g.numRows)
    else if [g.initial, g.envTrans, g.sysTrans].any fun s ↦ s.support.contains g.marker then
      return some (.markerMentioned v.name)
    else return none

/-- The first fault of the shape of a game. -/
def checkedShapeFault? : Checked (Option ShapeFault) :=
  if g.numRows = 0 then return some .noAssumption
  else do
    let fault? ← g.checkedMarkerFault?
    return fault? <|> g.progressFault? <|> g.rankFault?

theorem checkedMarkerFault?_eq : g.checkedMarkerFault? = .ok g.markerFault? := by
  rw [checkedMarkerFault?, markerFault?]
  split
  · rfl
  · rename_i hmarker
    have hmem : g.marker ∈ sp.registry.ids := by
      rw [Bool.or_eq_true, not_or, decide_eq_true_iff, Nat.not_le] at hmarker
      exact (sp.registry.mem_ids).mpr hmarker.1
    obtain ⟨v, hv, hchecked⟩ := Registry.exists_declaration hmem
    rw [hchecked, hv, ok_bind]
    dsimp only
    split
    · rfl
    · split <;> rfl

/-- **A shape is examined in range.** -/
theorem checkedShapeFault?_eq : g.checkedShapeFault? = .ok g.shapeFault? := by
  rw [checkedShapeFault?, shapeFault?]
  split
  · rfl
  · rw [checkedMarkerFault?_eq, ok_bind]
    rfl

end Game

end JusticeViolation

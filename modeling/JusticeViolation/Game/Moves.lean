import JusticeViolation.Game

/-!
# Moves of a game

A round of the game has two halves: the environment chooses its next values, a *choice*, and the
system answers with its own. A set of choices is a relation between current values, the next
values of the environment and the next value of the row marker. The latter names the row that a
committed step enters; a relation that leaves it open enters no particular row.

`forcing target` collects the choices all of whose answers lie in `target` — those without an
answer among them — and `landing target` the choices some answer of which does. `determinize` keeps
one choice of every state.
-/

namespace JusticeViolation

/-- Repeat `s := s ∪ step s` until nothing is added, at most `fuel` times. -/
def StateSet.saturate {sp : Space} (step : StateSet sp → StateSet sp) :
    Nat → StateSet sp → StateSet sp
  | 0, s => s
  | fuel + 1, s =>
    let next := s ∪ step s
    if next = s then s else saturate step fuel next

/-- The least set above `s` that `step` does not leave. Every round but the last adds a
valuation, so there are no more rounds than valuations. -/
def StateSet.closure {sp : Space} (step : StateSet sp → StateSet sp) (s : StateSet sp) :
    StateSet sp :=
  saturate step sp.size s

namespace Game

variable {sp : Space} (g : Game sp)

/-! ## Variables of the players -/

/-- The current copies other than the row marker. -/
def stateIds : List VarId := sp.registry.currentIds.filter (· != g.marker)

/-- The current values of the environment. -/
def envIds (_ : Game sp) : List VarId := sp.registry.roleIds .env false

/-- The next values of the environment. -/
def envNextIds (_ : Game sp) : List VarId := sp.registry.roleIds .env true

/-- The next values of the system. -/
def sysNextIds (_ : Game sp) : List VarId := sp.registry.roleIds .sys true

/-! ## The row marker -/

/-- The states of `s` tagged with a row. -/
def tag (s : StateSet sp) (row : Nat) : StateSet sp := s ∩ .literal g.marker (rowMarkerWord row)

/-- Drop the tags of `s`. -/
def strip (s : StateSet sp) : StateSet sp := s.forget [g.marker]

/-- The steps that enter a row. -/
def entering (row : Nat) : StateSet sp := .literal g.marker.twin (rowMarkerWord row)

/-! ## Steps -/

/-- The rounds of the game: a move of the environment with an answer of the system. -/
def trans : StateSet sp := g.envTrans ∩ g.sysTrans

/-- The choices all of whose answers lie in `target`. -/
def forcing (target : StateSet sp) : StateSet sp :=
  g.envTrans ∩ (g.sysTrans.implies target.prime).always g.sysNextIds

/-- The choices some answer of which lies in `target`. -/
def landing (target : StateSet sp) : StateSet sp :=
  (g.sysTrans ∩ target.prime).forget g.sysNextIds

/-- The moves of the environment that leave the system without an answer. -/
def deadlocking : StateSet sp := g.envTrans \ g.sysTrans.forget g.sysNextIds

/-- The states with a choice in `choices`. -/
def domain (_ : Game sp) (choices : StateSet sp) : StateSet sp :=
  choices.forget sp.registry.primedIds

/-- The states reached from `states` by `choices` and any answer. -/
def image (states choices : StateSet sp) : StateSet sp :=
  states.succ (choices ∩ g.sysTrans)

/-! ## Committing to one choice -/

/-- Keep, for every state, the choices with the least available value of `x`. -/
def keepLeast (x : VarId) (choices : StateSet sp) : StateSet sp :=
  ((List.range (sp.domainSize x)).foldl (fun (kept, covered) value ↦
      let part := (choices ∩ .literal x value) \ covered
      if part.isEmpty then (kept, covered) else (kept ∪ part, covered ∪ g.domain part))
    ((∅, ∅) : StateSet sp × StateSet sp)).1

/-- Keep one choice of every state: the least next value of each variable of the environment in
turn. -/
def determinize (choices : StateSet sp) : StateSet sp :=
  g.envNextIds.foldl (fun choices x ↦ g.keepLeast x choices) choices

/-! ## Reachability -/

/-- The states reached from `states` by rounds of the game that stay in `within`. -/
def reachable (states within : StateSet sp) : StateSet sp :=
  .closure (fun s ↦ s.succ g.trans ∩ within) (states ∩ within)

end Game

end JusticeViolation

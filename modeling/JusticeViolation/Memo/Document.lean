import JusticeViolation.Event
import JusticeViolation.Formula
import JusticeViolation.Game

/-!
# Memo documents

A memo document describes a solved game by formulas: it declares the variables and gives the
relations, the ranks and the layers of progress. Loading one takes three steps, each of which may
be refused: the declared variables, with a row marker added, make up a space; the formulas are
compiled over it; and the shape of the game is checked.

A document without assumptions stands for one with a single assumption that always holds.
-/

namespace JusticeViolation

/-- A cause for which a memo is refused. -/
inductive MemoFault
  | symbolic (fault : Fault)
  | undecodable
  | unreadable (path : String)
  | shape (fault : ShapeFault)
deriving DecidableEq, Repr

/-- The explanation shown to a user. -/
def MemoFault.message : MemoFault → String
  | symbolic fault => s!"Symbolic error: {fault.message}"
  | undecodable => "Memo JSON decode failed"
  | unreadable path => s!"Failed to read memo file '{path}'"
  | shape fault => s!"Memo shape invalid: {fault.message}"

namespace Memo

/-- A declared variable: by the names of its values, by their number, or Boolean. -/
structure Declaration where
  name : String
  role : Role
  values : Option (List String)
  size : Option Nat
deriving DecidableEq, Repr

/-- A memo document. -/
structure Document where
  declarations : List Declaration
  initial : Formula
  envTrans : Formula
  sysTrans : Formula
  assumptions : List Justice
  guarantees : List Justice
  ranks : List Formula
  progress : List (List (List Formula))
deriving Repr

/-- A memo that has been loaded. -/
structure Loaded where
  space : Space
  game : Game space

/-- Turn a symbolic fault into one of the memo. -/
def symbolic {α : Type} (result : Except Fault α) : Except MemoFault α :=
  result.mapError .symbolic

/-- Declare one variable of a document. -/
def Declaration.declare (d : Declaration) (r : Registry) : Except MemoFault Registry :=
  match d.values, d.size with
  | some values, none => symbolic ((r.declare d.name d.role values).map (·.1))
  | none, some size => symbolic ((r.declareRange d.name d.role size).map (·.1))
  | none, none => symbolic ((r.declareBool d.name d.role).map (·.1))
  | some _, some _ => .error (.shape (.valuesAndSize d.name))

end Memo

/-- Declare the row marker of a game with the given number of rows: a value for each, at least one,
and their number a word of the marker. -/
def Registry.declareRowMarker (r : Registry) (rows : Nat) : Except Fault (Registry × VarId) :=
  r.declareRange rowMarkerName .aux (rowMarkerWord (max rows 1))

namespace Memo.Document

/-- The assumptions: a single trivial one when none are listed. -/
def effectiveAssumptions (d : Document) : List Justice :=
  if d.assumptions.isEmpty then [⟨"true", "true"⟩] else d.assumptions

/-- The variables of a document and its row marker. -/
def registry (d : Document) : Except MemoFault Registry := do
  let r ← d.declarations.foldlM (fun r v ↦ v.declare r) Registry.empty
  symbolic ((r.declareRowMarker d.effectiveAssumptions.length).map (·.1))

/-- Compile the formulas of a document; the layers of progress come first. -/
def compile (d : Document) (sp : Space) : Except MemoFault (Game sp) := do
  let marker ← symbolic (sp.registry.require rowMarkerName)
  let progress ← symbolic (d.progress.mapM (·.mapM (Formula.compileAll sp)))
  let initial ← symbolic (d.initial.compile sp)
  let envTrans ← symbolic (d.envTrans.compile sp)
  let sysTrans ← symbolic (d.sysTrans.compile sp)
  let ranks ← symbolic (Formula.compileAll sp d.ranks)
  return {
    initial, envTrans, sysTrans, ranks, progress, marker
    assumptions := d.effectiveAssumptions
    guarantees := d.guarantees }

/-- Load a document without a look at the shape of the game. -/
def loadUnchecked (d : Document) : Except MemoFault Loaded := do
  let r ← d.registry
  let sp ← symbolic (Space.ofRegistry r)
  let game ← d.compile sp
  return ⟨sp, game⟩

/-- Load a document. -/
def load (d : Document) : Except MemoFault Loaded := do
  let memo ← d.loadUnchecked
  match memo.game.shapeFault? with
  | some fault => .error (.shape fault)
  | none => return memo

/-- What is reported about a document that has been loaded. -/
def loadedEvent (d : Document) (memo : Loaded) : Event :=
  .memoLoaded d.declarations.length memo.game.numRanks memo.game.numRows

end Memo.Document

end JusticeViolation

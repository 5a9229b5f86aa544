import PlanSearch.Checked

/-!
# Errors

A `SolverError` is what a run or its set-up reports. A `Failure` is anything that ends a
computation early: a reported error, a fault of the arithmetic or of the problem's own functions,
or a bound on the number of rounds that a caller chose too small.
-/

namespace PlanSearch

inductive SolverError where
  /-- A malformed network, neighbourhood or configuration. -/
  | configuration (message : String)
  /-- The incremental score is not the score computed from scratch. -/
  | scoreCorruption (context incremental full : String)
  /-- Undoing a move did not bring the score back. -/
  | undoCorruption (move before after : String)
  /-- A move was applied although it cannot be. -/
  | illegalMove (message : String)
  /-- An operation does not fit the state of the run. -/
  | invalidState (message : String)
  deriving DecidableEq, Repr

namespace SolverError

def message : SolverError → String
  | configuration text => s!"Configuration error: {text}"
  | scoreCorruption context incremental full =>
    s!"Score corruption {context}: incremental score {incremental} but full recalculation gives {full}"
  | undoCorruption move before after =>
    s!"Undo corruption after {move}: score before move was {before} but after undo is {after}"
  | illegalMove text => s!"Illegal move: {text}"
  | invalidState text => s!"Invalid state: {text}"

/-- An illegal move can be skipped; every other error ends the run. -/
def isFatal : SolverError → Bool
  | illegalMove _ => false
  | _ => true

end SolverError

inductive Failure where
  | fault (cause : Fault)
  | error (cause : SolverError)
  /-- The caller's bound on the number of rounds was reached. -/
  | outOfFuel
  deriving DecidableEq, Repr

/-- A computation on a state of type `σ` that may be cut short. -/
abbrev Action (σ : Type) : Type → Type := EStateM Failure σ

namespace Action

variable {σ τ α : Type}

/-- A pure computation that may meet a fault. -/
def ofChecked (x : Checked α) : Action σ α := fun s =>
  match x with
  | .ok a => .ok a s
  | .error f => .error (.fault f) s

/-- Runs `x` on the part of the state that `get` reads and `set` writes. -/
def onPart (get : σ → τ) (set : τ → σ → σ) (x : Action τ α) : Action σ α := fun s =>
  match x (get s) with
  | .ok a t => .ok a (set t s)
  | .error e t => .error e (set t s)

/-- A step as an action on the part of the state that `get` reads and `set` writes. -/
def ofStep (get : σ → τ) (set : τ → σ → σ) (x : Step τ α) : Action σ α := fun s =>
  match x (get s) with
  | .ok a t => .ok a (set t s)
  | .error f t => .error (.fault f) (set t s)

/-- The outcome of `x` as a value, with the state it left. -/
def attempt (x : Action σ α) : Action σ (Except Failure α) := fun s =>
  match x s with
  | .ok a t => .ok (.ok a) t
  | .error e t => .ok (.error e) t

end Action

end PlanSearch

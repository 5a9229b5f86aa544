import PlanSearch.Problem
import PlanSearch.Score.Text
import PlanSearch.Text.Outline

/-!
# Lifecycle events

A run is a nesting of scopes: solving contains phases, and a phase contains steps. Each boundary is
an event. A tracker counts the events it hears and notices those that do not nest.
-/

namespace PlanSearch

/-- A boundary of a scope. -/
inductive Event where
  | solvingStarted
  | phaseStarted
  | stepStarted
  | stepEnded
  | phaseEnded
  | solvingEnded
  deriving DecidableEq, Repr

namespace Event

/-- All events, from the first to the last of a run with one step. -/
def all : List Event :=
  [solvingStarted, phaseStarted, stepStarted, stepEnded, phaseEnded, solvingEnded]

def isStart : Event → Bool
  | solvingStarted | phaseStarted | stepStarted => true
  | _ => false

/-- The number of scopes that are open when the event is due. -/
def depthBefore : Event → Nat
  | solvingStarted => 0
  | phaseStarted | solvingEnded => 1
  | stepStarted | phaseEnded => 2
  | stepEnded => 3

/-- The number of scopes that are open after the event. -/
def depthAfter (e : Event) : Nat := if e.isStart then e.depthBefore + 1 else e.depthBefore - 1

/-- Selectors start over at these events. -/
def restarts : Event → Bool
  | phaseStarted | stepStarted => true
  | _ => false

end Event

/-! ## Trackers -/

/-- What has been heard so far. -/
structure Tracker where
  /-- The events, newest first. -/
  heard : List Event := []
  depth : Nat := 0
  /-- Events that were not due. -/
  violations : Nat := 0
  deriving DecidableEq, Repr, Inhabited

namespace Tracker

def count (t : Tracker) (e : Event) : Nat := t.heard.count e

def record (t : Tracker) (e : Event) : Tracker where
  heard := e :: t.heard
  depth := e.depthAfter
  violations := if t.depth = e.depthBefore then t.violations else t.violations + 1

/-- Every scope that was opened is closed, and nothing was out of place. -/
def isBalanced (t : Tracker) : Bool := t.violations == 0 && t.depth == 0

end Tracker

/-! ## Contexts -/

/-- What is known at a boundary. -/
structure Context (S : Type) (sh : Shape) where
  plan : S
  bestScore : Option (Score sh) := none
  /-- The score of the last completed step, or of the start of the phase. -/
  stepScore : Option (Score sh) := none
  phaseIndex : Nat := 0
  stepIndex : Nat := 0

def Context.describe {S : Type} {sh : Shape} (c : Context S sh) : String :=
  Outline.record "LifecycleContext"
    [("best_score", Outline.option (c.bestScore.map Score.describe)),
     ("step_score", Outline.option (c.stepScore.map Score.describe)),
     ("phase_index", toString c.phaseIndex),
     ("step_index", toString c.stepIndex)]

end PlanSearch

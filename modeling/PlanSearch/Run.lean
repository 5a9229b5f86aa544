import PlanSearch.Document.Basic
import PlanSearch.Evaluation
import PlanSearch.Lifecycle
import PlanSearch.Random.Source
import PlanSearch.Stats
import PlanSearch.Termination

/-!
# Runs

A run is the state of one solve: the workspace, the random source, the best plan so far, the steps
that were counted and what listeners were told. A span is the part of a run that belongs to one
phase.
-/

namespace PlanSearch

/-- Something that listeners are told. -/
inductive Notice (S : Type) (sh : Shape) where
  /-- The best plan improved. -/
  | improved (plan : S) (score : Score sh)
  | event (e : Event) (context : Context S sh)

namespace Notice

variable {S : Type} {sh : Shape}

def isImprovement : Notice S sh → Bool
  | improved _ _ => true
  | event _ _ => false

def isEvent (e : Event) : Notice S sh → Bool
  | improved _ _ => false
  | event other _ => other == e

end Notice

/-- An observer of a run. -/
structure Listener (S : Type) (sh : Shape) where
  /-- Whether it asks the run to stop, having heard these notices, newest first. -/
  stops : List (Notice S sh) → Bool := fun _ => false

/-- The best plan of a run. -/
structure Best (S : Type) (sh : Shape) where
  plan : S
  rank : Rank sh

structure Run (W S : Type) (sh : Shape) where
  workspace : W
  source : Source
  mode : Mode := .reproducible
  termination : Option (Termination sh) := none
  listeners : List (Listener S sh) := []
  /-- Someone outside asked the run to stop. -/
  stopRequested : Bool := false
  best : Option (Best S sh) := none
  steps : Nat := 0
  /-- The number of steps when the best plan last improved. -/
  lastImprovement : Nat := 0
  /-- Phases begun so far. -/
  phases : Nat := 0
  /-- Milliseconds that the run has taken. -/
  elapsed : Nat := 0
  stats : Stats := {}
  /-- What listeners were told, newest first. -/
  trace : List (Notice S sh) := []
  /-- What phases noted for themselves, newest first. -/
  remarks : List Document := []

namespace Run

variable {W S : Type} {sh : Shape}

/-! ## Counting -/

/-- Counts steps and phases from zero. -/
def start (r : Run W S sh) : Run W S sh := { r with steps := 0, lastImprovement := 0, phases := 0 }

/-- The index of a new phase. -/
def beginPhase (r : Run W S sh) : Nat × Run W S sh := (r.phases, { r with phases := r.phases + 1 })

def countStep (r : Run W S sh) : Run W S sh :=
  { r with steps := r.steps + 1, stats := r.stats.recordStep }

def record (f : Stats → Stats) (r : Run W S sh) : Run W S sh := { r with stats := f r.stats }

/-! ## Telling listeners -/

/-- Tells the listeners, one of which may ask the run to stop. -/
def announce (notice : Notice S sh) (r : Run W S sh) : Run W S sh :=
  let trace := notice :: r.trace
  { r with trace, stopRequested := r.stopRequested || r.listeners.any (·.stops trace) }

def bestScore (r : Run W S sh) : Option (Score sh) := r.best.map (·.rank.score)

variable [Workspace W S sh]

def plan (r : Run W S sh) : S := Workspace.plan r.workspace

def context (r : Run W S sh) (phaseIndex stepIndex : Nat) (stepScore : Option (Score sh)) :
    Context S sh where
  plan := r.plan
  bestScore := r.bestScore
  stepScore
  phaseIndex
  stepIndex

/-! ## Working -/

/-- Runs `x` on the workspace. -/
def onWorkspace {α : Type} (x : Action W α) : Action (Run W S sh) α := fun r =>
  match x r.workspace with
  | .ok a workspace => .ok a { r with workspace }
  | .error e workspace => .error e { r with workspace }

def scoreNow : Action (Run W S sh) (Score sh) := onWorkspace Workspace.scoreNow

def restartWorkspace (r : Run W S sh) : Run W S sh :=
  { r with workspace := Workspace.restart r.workspace }

/-- Makes the plan the best one if it ranks above the best so far, and says whether it does. -/
def updateBest [Plan S sh] : Action (Run W S sh) Bool := do
  let score ← scoreNow
  let r ← get
  let rank : Rank sh := ⟨Plan.unassignedCount r.plan, score⟩
  if r.best.all fun best => rank.beats best.rank then
    let r := r.announce (.improved r.plan score)
    set
      { r with
        best := some ⟨r.plan, rank⟩
        lastImprovement := r.steps
        stats := r.stats.recordImprovement }
    return true
  else return false

/-! ## Stopping -/

def progress (r : Run W S sh) : Progress sh where
  elapsed := r.elapsed
  steps := r.steps
  unimproved := r.steps - r.lastImprovement
  bestScore := r.bestScore

def isTerminated (r : Run W S sh) : Bool :=
  r.stopRequested || r.termination.any (·.holds r.progress)

/-- The best plan, or the plan as it is if there is none, and the final statistics. -/
def result (r : Run W S sh) : S × Stats :=
  (match r.best with
    | some best => best.plan
    | none => r.plan,
    { r.stats with calculations := Workspace.calculations r.workspace })

end Run

/-! ## Spans -/

/-- What belongs to one phase of a run. -/
structure Span (sh : Shape) where
  index : Nat
  startingScore : Option (Score sh) := none
  steps : Nat := 0
  /-- The number of steps of this phase when the best plan last improved during it. -/
  lastImprovement : Nat := 0

/-- A run within a phase. -/
structure Scope (W S : Type) (sh : Shape) where
  span : Span sh
  run : Run W S sh

namespace Scope

variable {W S : Type} {sh : Shape}

/-- Runs `x` on the run. -/
def onRun {α : Type} (x : Action (Run W S sh) α) : Action (Scope W S sh) α :=
  Action.onPart run (fun run sc => { sc with run }) x

def mapRun (f : Run W S sh → Run W S sh) (sc : Scope W S sh) : Scope W S sh :=
  { sc with run := f sc.run }

/-- Counts a step of the phase and of the run. -/
def countStep (sc : Scope W S sh) : Scope W S sh where
  span := { sc.span with steps := sc.span.steps + 1 }
  run := sc.run.countStep

variable [Workspace W S sh]

def updateBest [Plan S sh] : Action (Scope W S sh) Bool := do
  let improved ← onRun Run.updateBest
  if improved then
    modify fun sc => { sc with span := { sc.span with lastImprovement := sc.span.steps } }
  return improved

/-- Counts the step that was just made and says whether it improved the best plan. -/
def completeStep [Plan S sh] : Action (Scope W S sh) Bool := do
  modify countStep
  updateBest

def context (sc : Scope W S sh) (stepScore : Option (Score sh)) : Context S sh :=
  sc.run.context sc.span.index sc.span.steps stepScore

def progress (sc : Scope W S sh) : Progress sh where
  elapsed := sc.run.elapsed
  steps := sc.span.steps
  unimproved := sc.span.steps - sc.span.lastImprovement
  bestScore := sc.run.bestScore

/-- The run is over, or the phase is by its own condition. -/
def isTerminated (own : Option (Termination sh)) (sc : Scope W S sh) : Bool :=
  sc.run.isTerminated || own.any (·.holds sc.progress)

end Scope

end PlanSearch

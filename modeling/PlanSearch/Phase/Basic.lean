import PlanSearch.Run

/-!
# Phases

A phase is a part of a solve that works on the run by itself. `SolvingPhase` is what a solver needs
of it; all operations act on the phase together with the run.
-/

namespace PlanSearch

/-- How a phase came to its end. -/
inductive Outcome where
  | completed
  | terminated
  | noAcceptedMove
  deriving DecidableEq, Repr

def Outcome.describe : Outcome → String
  | completed => "Completed"
  | terminated => "Terminated"
  | noAcceptedMove => "NoAcceptedMove"

/-- Phases of type `P` work on runs of type `R`. -/
class SolvingPhase (P R : Type) where
  name : P → R → String
  /-- Fails if the phase cannot work as it is set up. -/
  validate : Action (P × R) Unit
  /-- Whether the phase stops only when the whole run does. -/
  needsTermination : Action (P × R) Bool
  solvingStarted : Action (P × R) Unit
  /-- Works until the phase is over, for at most as many rounds as the bound allows. -/
  solve : Nat → Action (P × R) Outcome
  solvingEnded : Action (P × R) Unit

variable {P W S : Type} {sh : Shape}

/-- Runs `x` in a span of its own. -/
def inSpan {α : Type} (span : Span sh) (x : Action (P × Scope W S sh) α) :
    Action (P × Run W S sh) α := fun (p, run) =>
  match x (p, ⟨span, run⟩) with
  | .ok a (p, sc) => .ok a (p, sc.run)
  | .error e (p, sc) => .error e (p, sc.run)

/-- Runs `x` on the scope alone. -/
def onScope {α : Type} (x : Action (Scope W S sh) α) : Action (P × Scope W S sh) α :=
  Action.onPart (·.2) (fun sc s => (s.1, sc)) x

def mapScope (f : Scope W S sh → Scope W S sh) : Action (P × Scope W S sh) Unit :=
  modify fun s => (s.1, f s.2)

def mapPhase (f : P → P) : Action (P × Scope W S sh) Unit :=
  modify fun s => (f s.1, s.2)

end PlanSearch

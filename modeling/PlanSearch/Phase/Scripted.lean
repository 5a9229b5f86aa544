import PlanSearch.Document.Encode
import PlanSearch.Phase.Basic

/-!
# Scripted phases

A phase that does what it is told and notes every call that the solver makes of it, so that the
order of the calls can be observed.
-/

namespace PlanSearch

/-- A phase that works on runs of type `R`. -/
structure Scripted (R : Type) where
  id : Nat
  needsTermination : Bool := false
  /-- How the check of the phase fails. -/
  invalid : Option SolverError := none
  /-- How the phase fails once it has done its work. -/
  failure : Option SolverError := none
  /-- Its work; a step that reports an error has no result. -/
  steps : List (Action R Document) := []

namespace Scripted

variable {W S : Type} {sh : Shape}

/-- Notes a call. -/
def note (name : String) (details : List Document) :
    Action (Scripted (Run W S sh) × Run W S sh) Unit :=
  modify fun (p, r) =>
    (p, { r with remarks := .list (.text name :: .ofNat p.id :: details) :: r.remarks })

/-- Fails if there is something to fail with. -/
def fail (e : Option SolverError) : Action (Scripted (Run W S sh) × Run W S sh) Unit :=
  match e with
  | none => return
  | some e => throw (.error e)

/-- Does the steps one after another. -/
def perform : List (Action (Run W S sh) Document) → Action (Run W S sh) (List Document)
  | [] => return []
  | step :: steps => do
    let result ← match ← Action.attempt step with
      | .ok d => pure d
      | .error (.error _) => pure .null
      | .error failure => throw failure
    return result :: (← perform steps)

/-- Begins a phase, draws a word, does the steps and notes all of it. -/
def work : Action (Scripted (Run W S sh) × Run W S sh) Outcome := do
  let (p, r) ← get
  let (index, r) := r.beginPhase
  let (word, source) := r.source.next64
  set (p, { r with source })
  let results ← Action.onPart (·.2) (fun r s => (s.1, r)) (perform p.steps)
  note "solve" (.ofNat index :: .ofUnsigned word :: results)
  fail p.failure
  return .completed

instance : SolvingPhase (Scripted (Run W S sh)) (Run W S sh) where
  name _ _ := "Scripted"
  validate := do
    note "validate" []
    fail (← get).1.invalid
  needsTermination := do
    note "needs" []
    return (← get).1.needsTermination
  solvingStarted := note "started" []
  solve _ := work
  solvingEnded := note "ended" []

end Scripted

end PlanSearch

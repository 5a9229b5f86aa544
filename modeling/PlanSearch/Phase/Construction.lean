import PlanSearch.Phase.Basic
import PlanSearch.Phase.Placer

/-!
# Construction

A construction phase gives values to unassigned variables, one placement a step. Of the values of a
placement it takes the first that leads to the highest score, or the first that is good enough for
the phase to pick early.
-/

namespace PlanSearch

/-- When a value is taken without looking at those behind it. -/
inductive PickEarly where
  | never
  /-- The score does not fall below that of the last step. -/
  | nonDeteriorating
  | feasible
  deriving DecidableEq, Repr

namespace PickEarly

instance : Inhabited PickEarly := ⟨never⟩

def isGoodEnough {sh : Shape} (p : PickEarly) (last score : Score sh) : Bool :=
  match p with
  | never => false
  | nonDeteriorating => last ≤ score
  | feasible => score.isFeasible

def describe : PickEarly → String
  | never => "Never"
  | nonDeteriorating => "FirstNonDeterioratingScore"
  | feasible => "FirstFeasibleScore"

end PickEarly

structure Construction (S V : Type) (sh : Shape) where
  placers : List (Placer S V)
  pickEarly : PickEarly := .never
  termination : Option (Termination sh) := none

namespace Construction

variable {W S V : Type} {sh : Shape}

/-! ## Setting up -/

/-- Places the variables in order. -/
def firstFit (ds : List (Definition S V)) : Construction S V sh :=
  { placers := ds.map Placer.new }

/-- Places the variables in order, the hardest entities of each first. -/
def firstFitDecreasing (ds : List (Definition S V)) : Except SolverError (Construction S V sh) := do
  return { placers := ← ds.mapM Placer.hardestFirst }

def validate (p : Construction S V sh) : Except SolverError Unit :=
  if p.placers.isEmpty then
    .error (.configuration "construction heuristic has no variables to place")
  else .ok ()

def describe (p : Construction S V sh) : String :=
  Outline.record "ConstructionHeuristicPhase"
    [("placers", Outline.list (p.placers.map Placer.describe)),
     ("pick_early", p.pickEarly.describe),
     ("termination", Outline.option (p.termination.map Termination.describe))]

def hear (p : Construction S V sh) (e : Event) : Construction S V sh :=
  { p with placers := p.placers.map fun placer => placer.hear e }

/-! ## Solving -/

/-- A variable, by its placer, of one entity. -/
structure Placement where
  placer : Nat
  entity : Nat
  deriving DecidableEq, Repr

variable [Plan S sh] [Workspace W S sh]

/-- Everything that is to be placed, variable by variable. -/
def placements (p : Construction S V sh) (plan : S) : List Placement :=
  (p.placers.zipIdx.map fun (placer, i) => (placer.placements plan).map (⟨i, ·⟩)).flatten

/-- Tells the placers and the listeners of an event. -/
def fire (e : Event) (stepScore : Score sh) :
    Action (Construction S V sh × Scope W S sh) Unit := do
  mapPhase fun p => p.hear e
  mapScope fun sc => sc.mapRun (Run.announce (.event e (sc.context (some stepScore))))

/-- A value that was tried, with the score it leads to. -/
abbrev Candidate (S V : Type) (sh : Shape) : Type := Move S V × Score sh

variable [DecidableEq V] [ToString V]

/-- Tries the values of one entity in order and answers the move to make, if there is one. -/
def tryValues (pickEarly : PickEarly) (cell : Variable S V) (entity : Nat) (last : Score sh) :
    Option (Candidate S V sh) → List (Option V) → Action (Run W S sh) (Option (Move S V))
  | best, [] => return best.map (·.1)
  | best, v :: vs => do
    let m : Move S V := .leaf (.change cell entity v)
    let r ← get
    if !m.isDoable r.plan then
      set (r.record Stats.recordIllegal)
      tryValues pickEarly cell entity last best vs
    else
      let score ← Run.onWorkspace (scoreCandidate r.mode m)
      let improves := best.all fun b => b.2 < score
      modify (Run.record (Stats.recordMove improves))
      if pickEarly.isGoodEnough last score then return some m
      else tryValues pickEarly cell entity last (if improves then some (m, score) else best) vs

/-- The move that a placement leads to. -/
def choose (place : Placement) (last : Score sh) :
    Action (Construction S V sh × Scope W S sh) (Option (Move S V)) := do
  let (p, sc) ← get
  match p.placers[place.placer]? with
  | none => throw (.error (.invalidState
      s!"placement refers to missing placer {place.placer}"))
  | some placer =>
    let (placer, source) := placer.start sc.run.plan place.entity sc.run.source
    set ({ p with placers := p.placers.set place.placer placer },
      sc.mapRun fun r => { r with source })
    onScope (Scope.onRun
      (tryValues p.pickEarly placer.definition.cell place.entity last none placer.values.upcoming))

/-- Makes the move and answers the score of the step. -/
def commit (m : Option (Move S V)) (stepIndex : Nat) : Action (Run W S sh) (Score sh) := do
  let mode := (← get).mode
  Run.onWorkspace do
    if let some m := m then modify m.apply
    if mode.isAsserted then Workspace.checkedScore s!"after construction step {stepIndex}"
    else Workspace.scoreNow

/-- One step; answers its score. -/
def step (place : Placement) (last : Score sh) :
    Action (Construction S V sh × Scope W S sh) (Score sh) := do
  fire .stepStarted last
  let m ← choose place last
  let stepIndex := (← get).2.span.steps
  let score ← onScope (Scope.onRun (commit m stepIndex))
  let _ ← onScope Scope.completeStep
  fire .stepEnded score
  return score

/-- Works off the placements; answers how it ended, and the score of the last step. -/
def steps : List Placement → Score sh →
    Action (Construction S V sh × Scope W S sh) (Outcome × Score sh)
  | [], last => return (.completed, last)
  | place :: rest, last => do
    let (p, sc) ← get
    if sc.isTerminated p.termination then return (.terminated, last)
    else
      let score ← step place last
      steps rest score

/-- The whole phase within its span. -/
def work : Action (Construction S V sh × Scope W S sh) Outcome := do
  mapScope fun sc => sc.mapRun Run.restartWorkspace
  let start ← onScope (Scope.onRun Run.scoreNow)
  mapScope fun sc => { sc with span := { sc.span with startingScore := some start } }
  fire .phaseStarted start
  let (p, sc) ← get
  let (outcome, last) ← steps (p.placements sc.run.plan) start
  let _ ← onScope Scope.updateBest
  fire .phaseEnded last
  return outcome

def solve : Action (Construction S V sh × Run W S sh) Outcome := fun (p, run) =>
  match p.validate with
  | .error e => .error (.error e) (p, run)
  | .ok () =>
    let (index, run) := run.beginPhase
    inSpan { index } work (p, run)

end Construction

end PlanSearch

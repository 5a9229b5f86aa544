import PlanSearch.Acceptance
import PlanSearch.Arena
import PlanSearch.Forager
import PlanSearch.Neighbourhood.Tree
import PlanSearch.Phase.Basic

/-!
# Local search

A local search improves a plan step by step. A step draws candidates from the neighbourhood, scores
those that can be applied, offers the scores to the acceptance rule and the accepted candidates to
the forager, and applies the forager's winner. Candidates are scored one by one, or in batches by
several workers; a forager that may stop early sees batches of one, so that both ways draw the same
candidates.
-/

namespace PlanSearch

/-- What a step without an accepted candidate means. -/
inductive NoAcceptedMove where
  /-- The phase is over. -/
  | terminate
  /-- The step counts and the search goes on. -/
  | proceed
  deriving DecidableEq, Repr

namespace NoAcceptedMove

instance : Inhabited NoAcceptedMove := ⟨terminate⟩

def describe : NoAcceptedMove → String
  | terminate => "Terminate"
  | proceed => "Continue"

end NoAcceptedMove

structure LocalSearch (S V : Type) (sh : Shape) where
  neighbourhood : Neighbourhood S V
  acceptance : Acceptance sh := .hillClimbing
  forager : Forager sh := .best none 0 none
  termination : Option (Termination sh) := none
  noAcceptedMove : NoAcceptedMove := .terminate
  /-- The most candidates that a step may draw. -/
  candidateLimit : Option Nat := none
  /-- The number of workers; none if candidates are scored one by one. -/
  threads : Option Nat := none
  arena : Arena (Move S V) := .empty

/-- The candidates drawn in a step, and how many of the last ones in a row were not accepted. -/
structure Draws where
  drawn : Nat := 0
  streak : Nat := 0
  deriving DecidableEq, Repr, Inhabited

namespace Draws

def draw (d : Draws) : Draws := { d with drawn := d.drawn + 1 }

def accept (d : Draws) : Draws := { d with streak := 0 }

def refuse (d : Draws) : Draws := { d with streak := d.streak + 1 }

end Draws

namespace LocalSearch

variable {W S V : Type} {sh : Shape}

/-- Candidates that are not accepted in a row after which a step gives up, where neither the
neighbourhood nor a limit ends it. -/
def streakLimit : Nat := 10000

/-- Candidates that are drawn for each worker before a batch is scored. -/
def batchPerThread : Nat := 4

/-! ## Setting up -/

/-- A step has to end: by the neighbourhood, by the forager or by a limit. -/
def validate (p : LocalSearch S V sh) : Except SolverError Unit :=
  if p.neighbourhood.tree.isNeverEnding && !p.forager.canStopEarly && p.candidateLimit.isNone then
    .error (.configuration <|
      "local search with a never-ending move selector needs a forager that " ++
        "quits early or a step_candidate_limit")
  else .ok ()

/-- Scores candidates with `n` workers. -/
def withThreads (n : Nat) (p : LocalSearch S V sh) : Except SolverError (LocalSearch S V sh) :=
  if n = 0 then .error (.configuration "parallel evaluation needs at least one thread")
  else .ok { p with threads := some n }

/-- Nothing but a termination of the run can end the phase. -/
def needsTermination (p : LocalSearch S V sh) : Bool :=
  p.noAcceptedMove == .proceed && p.termination.isNone

def describe [ToString V] (p : LocalSearch S V sh) : String :=
  Outline.record "LocalSearchPhase"
    [("move_selector", p.neighbourhood.tree.describe),
     ("acceptor", p.acceptance.describe),
     ("forager", p.forager.describe),
     ("termination", Outline.option (p.termination.map Termination.describe)),
     ("no_accepted_move_policy", p.noAcceptedMove.describe),
     ("step_candidate_limit", Outline.option (p.candidateLimit.map toString)),
     ("evaluator", Outline.option (p.threads.map fun n =>
        Outline.record "ParallelEvaluator" [("thread_count", toString n)]))]

def hear (e : Event) (plan : S) (stepScore : Option (Score sh)) (p : LocalSearch S V sh) :
    LocalSearch S V sh :=
  { p with
    neighbourhood := p.neighbourhood.hear plan e
    acceptance := p.acceptance.hear e stepScore
    forager := p.forager.hear e }

/-! ## Drawing -/

/-- Another candidate may be drawn. -/
def mayDraw (p : LocalSearch S V sh) (d : Draws) : Bool :=
  (p.candidateLimit.all fun limit => d.drawn < limit) &&
    !(p.candidateLimit.isNone && p.neighbourhood.tree.isNeverEnding && streakLimit ≤ d.streak)

/-- What the steps of the search act on. -/
abbrev Searching (W S V : Type) (sh : Shape) : Type := LocalSearch S V sh × Scope W S sh

variable [Plan S sh] [Workspace W S sh]

/-- Tells the parts of the search and the listeners of an event. -/
def fire (e : Event) (stepScore : Score sh) : Action (Searching W S V sh) Unit := do
  let context := (← get).2.context (some stepScore)
  mapPhase (hear e context.plan (some stepScore))
  mapScope fun sc => sc.mapRun (Run.announce (.event e context))

/-- The next candidate of the neighbourhood. -/
def draw : Action (Searching W S V sh) (Option (Move S V)) := fun (p, sc) =>
  match p.neighbourhood.next sc.run.plan sc.run.source with
  | (m, neighbourhood, source) =>
    .ok m ({ p with neighbourhood }, sc.mapRun fun r => { r with source })

def isDoable [DecidableEq V] (m : Move S V) : Action (Searching W S V sh) Bool := do
  return m.isDoable (← get).2.run.plan

def record (f : Stats → Stats) : Action (Searching W S V sh) Unit :=
  mapScope fun sc => sc.mapRun (Run.record f)

/-- Offers a scored candidate to the acceptance rule and, if it is accepted, to the forager. -/
def consider (last : Score sh) (m : Move S V) (score : Score sh) (d : Draws) :
    Action (Searching W S V sh) Draws := do
  let p := (← get).1
  let accepted := p.acceptance.accepts last score
  record (Stats.recordMove accepted)
  if accepted then
    mapPhase fun p =>
      let (index, arena) := p.arena.push m
      { p with arena, forager := p.forager.add ⟨index, score⟩ }
    return d.accept
  else return d.refuse

variable [DecidableEq V] [ToString V]

/-- Scores candidates one by one until the forager is done or there are no more. -/
def collect (last : Score sh) : Nat → Draws → Action (Searching W S V sh) Unit
  | 0, _ => throw .outOfFuel
  | fuel + 1, d => do
    if !(← get).1.mayDraw d then return
    match ← draw with
    | none => return
    | some m =>
      let d := d.draw
      if !(← isDoable m) then
        record Stats.recordIllegal
        collect last fuel d.refuse
      else
        let mode := (← get).2.run.mode
        let score ← onScope (Scope.onRun (Run.onWorkspace (scoreCandidate mode m)))
        let d ← consider last m score d
        if (← get).1.forager.isDone then return
        else collect last fuel d

/-! ## Drawing in batches -/

/-- Draws until `k` candidates can be applied; also says whether the neighbourhood ran dry. -/
def drawBatch : Nat → Nat → Draws →
    Action (Searching W S V sh) (List (Move S V) × Draws × Bool)
  | 0, _, _ => throw .outOfFuel
  | _ + 1, 0, d => return ([], d, false)
  | fuel + 1, k + 1, d => do
    if !(← get).1.mayDraw d then return ([], d, false)
    match ← draw with
    | none => return ([], d, true)
    | some m =>
      let d := d.draw
      if ← isDoable m then
        let (ms, d, dry) ← drawBatch fuel k d
        return (m :: ms, d, dry)
      else
        record Stats.recordIllegal
        drawBatch fuel (k + 1) d.refuse

/-- Considers the candidates of a batch in order; also says whether the forager is done. -/
def considerEach (last : Score sh) : List (Move S V × Except SolverError (Score sh)) → Draws →
    Action (Searching W S V sh) (Draws × Bool)
  | [], d => return (d, false)
  | (_, .error e) :: _, _ => throw (.error e)
  | (m, .ok score) :: rest, d => do
    let d ← consider last m score d
    if (← get).1.forager.isDone then return (d, true)
    else considerEach last rest d

/-- Scores candidates batch by batch until the forager is done or there are no more. -/
def collectBatches (threads batchSize : Nat) (last : Score sh) :
    Nat → Draws → Action (Searching W S V sh) Unit
  | 0, _ => throw .outOfFuel
  | fuel + 1, d => do
    if !(← get).1.mayDraw d then return
    let (batch, d, dry) ← drawBatch (fuel + 1) batchSize d
    let run := (← get).2.run
    let scores ← ofExcept (scoreBatch run.mode threads batch run.workspace)
    let (d, done) ← considerEach last (batch.zip scores) d
    if done || dry then return
    else collectBatches threads batchSize last fuel d

/-! ## Steps -/

/-- Collects the candidates of a step and takes the winner out of the arena. -/
def forage (fuel : Nat) (last : Score sh) : Action (Searching W S V sh) (Option (Move S V)) := do
  let p := (← get).1
  match p.threads with
  | none => collect last fuel {}
  | some threads =>
    let batchSize := if p.forager.canStopEarly then 1 else threads * batchPerThread
    collectBatches threads batchSize last fuel {}
  let (p, sc) ← get
  let (winner, forager, source) := p.forager.pick sc.run.source
  let (m, arena) : Option (Move S V) × Arena (Move S V) :=
    match winner with
    | none => (none, p.arena)
    | some winner => p.arena.take winner.index
  set ({ p with forager, arena }, sc.mapRun fun r => { r with source })
  return m

/-- Applies the winner and answers the score of the step. -/
def commit (m : Move S V) (stepIndex : Nat) : Action (Run W S sh) (Score sh) := do
  let mode := (← get).mode
  Run.onWorkspace do
    modify m.apply
    if mode.isAsserted then Workspace.checkedScore s!"after step {stepIndex} ({m.describe})"
    else Workspace.scoreNow

/-- One step; answers its score, or nothing if no candidate was accepted. -/
def step (fuel : Nat) (last : Score sh) : Action (Searching W S V sh) (Option (Score sh)) := do
  fire .stepStarted last
  mapPhase fun p => { p with arena := .empty }
  match ← forage fuel last with
  | none =>
    fire .stepEnded last
    return none
  | some m =>
    let stepIndex := (← get).2.span.steps
    let score ← onScope (Scope.onRun (commit m stepIndex))
    let _ ← onScope Scope.completeStep
    fire .stepEnded score
    return some score

/-- Steps until something ends the phase; answers how it ended, and the score of the last step. -/
def steps (fuel : Nat) : Nat → Score sh → Action (Searching W S V sh) (Outcome × Score sh)
  | 0, _ => throw .outOfFuel
  | rounds + 1, last => do
    let (p, sc) ← get
    if sc.isTerminated p.termination then return (.terminated, last)
    else
      match ← step fuel last with
      | some score => steps fuel rounds score
      | none =>
        match p.noAcceptedMove with
        | .terminate => return (.noAcceptedMove, last)
        | .proceed =>
          mapScope Scope.countStep
          steps fuel rounds last

/-- The whole phase within its span. -/
def work (fuel : Nat) : Action (Searching W S V sh) Outcome := do
  mapScope fun sc => sc.mapRun Run.restartWorkspace
  let start ← onScope (Scope.onRun Run.scoreNow)
  mapScope fun sc => { sc with span := { sc.span with startingScore := some start } }
  let _ ← onScope Scope.updateBest
  fire .phaseStarted start
  let (outcome, last) ← steps fuel fuel start
  fire .phaseEnded last
  return outcome

def solve (fuel : Nat) : Action (LocalSearch S V sh × Run W S sh) Outcome := fun (p, run) =>
  match p.validate with
  | .error e => .error (.error e) (p, run)
  | .ok () =>
    if p.needsTermination && run.termination.isNone then
      .error (.error (.configuration
        "no_accepted_move_policy = continue needs a solver or phase termination")) (p, run)
    else
      let (index, run) := run.beginPhase
      inSpan { index } (work fuel) (p, run)

end LocalSearch

end PlanSearch

import PlanSearch.Phase.Construction
import PlanSearch.Phase.LocalSearch

/-!
# Solving

A solver runs its phases one after another on one run and answers the best plan that was met. It is
checked before anything happens; once solving has started, listeners hear of its end even when a
phase fails.
-/

namespace PlanSearch

/-! ## The phases at hand -/

inductive SearchPhase (S V : Type) (sh : Shape) where
  | construction (p : Construction S V sh)
  | localSearch (p : LocalSearch S V sh)

namespace SearchPhase

variable {W S V : Type} {sh : Shape}

def name : SearchPhase S V sh → String
  | construction _ => "ConstructionHeuristic"
  | localSearch _ => "LocalSearch"

def validate : SearchPhase S V sh → Except SolverError Unit
  | construction p => p.validate
  | localSearch p => p.validate

def needsTermination : SearchPhase S V sh → Bool
  | construction _ => false
  | localSearch p => p.needsTermination

def describe [ToString V] : SearchPhase S V sh → String
  | construction p => p.describe
  | localSearch p => p.describe

/-- The trackers of the leaves of the neighbourhood, if the phase has one. -/
def trackers : SearchPhase S V sh → Option (List Tracker)
  | construction _ => none
  | localSearch p => some p.neighbourhood.trackers

/-- Tells the phase of an event outside its span. -/
def hear [Plan S sh] (e : Event) (plan : S) (stepScore : Option (Score sh)) :
    SearchPhase S V sh → SearchPhase S V sh
  | construction p => construction (p.hear e)
  | localSearch p => localSearch (p.hear e plan stepScore)

/-- Puts a phase back into the sum. -/
def wrap {P α : Type} (f : P → SearchPhase S V sh) :
    EStateM.Result Failure (P × Run W S sh) α →
      EStateM.Result Failure (SearchPhase S V sh × Run W S sh) α
  | .ok a (p, r) => .ok a (f p, r)
  | .error e (p, r) => .error e (f p, r)

variable [Plan S sh] [Workspace W S sh] [DecidableEq V] [ToString V]

def solve (fuel : Nat) : Action (SearchPhase S V sh × Run W S sh) Outcome
  | (construction p, r) => wrap construction (Construction.solve (p, r))
  | (localSearch p, r) => wrap localSearch (LocalSearch.solve fuel (p, r))

instance : SolvingPhase (SearchPhase S V sh) (Run W S sh) where
  name p _ := p.name
  validate := fun (p, r) =>
    match p.validate with
    | .ok () => .ok () (p, r)
    | .error e => .error (.error e) (p, r)
  needsTermination := fun (p, r) => .ok p.needsTermination (p, r)
  solvingStarted := modify fun (p, r) => (p.hear .solvingStarted r.plan none, r)
  solve := solve
  solvingEnded := modify fun (p, r) => (p.hear .solvingEnded r.plan r.bestScore, r)

end SearchPhase

/-! ## Walking through the phases -/

variable {P R : Type}

/-- Runs `f` on each phase, from the first to the last. -/
def forEachPhase (f : Action (P × R) Unit) : Action (List P × R) Unit
  | ([], r) => .ok () ([], r)
  | (p :: ps, r) =>
    match f (p, r) with
    | .error e (p, r) => .error e (p :: ps, r)
    | .ok () (p, r) =>
      match forEachPhase f (ps, r) with
      | .error e (ps, r) => .error e (p :: ps, r)
      | .ok () (ps, r) => .ok () (p :: ps, r)

/-- Runs `f` on each phase, from the last to the first. -/
def forEachPhaseBackward (f : Action (P × R) Unit) : Action (List P × R) Unit
  | ([], r) => .ok () ([], r)
  | (p :: ps, r) =>
    match forEachPhaseBackward f (ps, r) with
    | .error e (ps, r) => .error e (p :: ps, r)
    | .ok () (ps, r) =>
      match f (p, r) with
      | .error e (p, r) => .error e (p :: ps, r)
      | .ok () (p, r) => .ok () (p :: ps, r)

/-! ## Solvers -/

structure Solver (P S : Type) (sh : Shape) where
  phases : List P := []
  termination : Option (Termination sh) := none
  mode : Mode := .reproducible
  seed : Option UInt64 := none
  listeners : List (Listener S sh) := []
  /-- Someone asked the solver to stop before it started. -/
  stopRequested : Bool := false

/-- The plan that a solve ended with. -/
structure Solved (S : Type) (sh : Shape) where
  plan : S
  score : Score sh
  stats : Stats

namespace Solved

variable {S : Type} {sh : Shape} [Plan S sh]

def rank (x : Solved S sh) : Rank sh := ⟨Plan.unassignedCount x.plan, x.score⟩

/-- The better of two, the first if they rank alike. -/
def better (x y : Solved S sh) : Solved S sh := if y.rank.beats x.rank then y else x

end Solved

namespace Solver

variable {W S : Type} {sh : Shape} [Plan S sh] [Workspace W S sh]

/-- A run of the solver that has not started. -/
def newRun (solver : Solver P S sh) (w : W) : Run W S sh where
  workspace := w
  source := Source.ofSeed (solver.seed.getD 0)
  mode := solver.mode
  termination := solver.termination
  listeners := solver.listeners
  stopRequested := solver.stopRequested

variable [SolvingPhase P (Run W S sh)]

/-- Checks a phase before the start. -/
def checkPhase : Action (P × Run W S sh) Unit := do
  SolvingPhase.validate
  let (p, r) ← get
  if r.termination.isNone then
    if ← SolvingPhase.needsTermination then
      let name := SolvingPhase.name p r
      throw (.error (.configuration
        s!"{name} phase never stops on its own and the solver has no termination"))

/-- Lets a phase work unless the run is over. -/
def solvePhase (fuel : Nat) : Action (P × Run W S sh) Unit := do
  if !(← get).2.isTerminated then
    let _ ← SolvingPhase.solve fuel

/-- Announces the start or the end of solving. -/
def announce (e : Event) : Action (List P × Run W S sh) Unit :=
  modify fun (ps, r) => (ps, r.announce (.event e (r.context 0 0 r.bestScore)))

/-- Runs `x`; an error that it reports becomes its answer. -/
def attempt {σ : Type} (x : Action σ Unit) : Action σ (Option SolverError) := fun s =>
  match x s with
  | .ok () s => .ok none s
  | .error (.error e) s => .ok (some e) s
  | .error failure s => .error failure s

/-- The outcome of a run whose phases are over. -/
def conclude : Action (Run W S sh) (Solved S sh) := do
  if (← get).best.isNone then
    let _ ← Run.updateBest
  let r ← get
  let score ← match r.bestScore with
    | some score => pure score
    | none => Run.scoreNow
  let (plan, stats) := (← get).result
  return { plan := Plan.setScore (some score) plan, score, stats }

/-- Solves with the phases and the run at hand. -/
def work (fuel : Nat) : Action (List P × Run W S sh) (Solved S sh) := do
  if (← get).1.isEmpty then throw (.error (.configuration "solver has no phases"))
  forEachPhase checkPhase
  modify fun (ps, r) => (ps, r.start)
  announce .solvingStarted
  forEachPhase SolvingPhase.solvingStarted
  let failure ← attempt (forEachPhase (solvePhase fuel))
  forEachPhaseBackward SolvingPhase.solvingEnded
  announce .solvingEnded
  match failure with
  | some e => throw (.error e)
  | none => Action.onPart (·.2) (fun r s => (s.1, r)) conclude

/-- Solves from the plan of `w` on. The phases and the run come back as they were left. -/
def solve (fuel : Nat) (solver : Solver P S sh) (w : W) :
    EStateM.Result Failure (List P × Run W S sh) (Solved S sh) :=
  work fuel (solver.phases, solver.newRun w)

/-- The answer of a solve. -/
def answer (fuel : Nat) (solver : Solver P S sh) (w : W) : Except Failure (Solved S sh) :=
  match solver.solve fuel w with
  | .ok x _ => .ok x
  | .error e _ => .error e

/-- Solves once for each seed, with the solver and workspace that `build` makes, and answers the
best outcome. -/
def solveMany (fuel : Nat) (seeds : List UInt64)
    (build : UInt64 → Except Failure (Solver P S sh × W)) : Except Failure (Solved S sh) := do
  if seeds.isEmpty then
    throw (.error (.configuration "solve_many needs at least one seed"))
  let outcomes ← seeds.mapM fun seed => do
    let (solver, w) ← build seed
    { solver with seed := some seed }.answer fuel w
  match outcomes with
  | [] => throw (.error (.invalidState "no run produced a result"))
  | first :: rest => return rest.foldl Solved.better first

end Solver

namespace Solver

variable {S V : Type} {sh : Shape}

def describe [ToString V] (solver : Solver (SearchPhase S V sh) S sh) : String :=
  Outline.record "Solver"
    [("phases", Outline.list (solver.phases.map SearchPhase.describe)),
     ("termination", Outline.option (solver.termination.map Termination.describe)),
     ("environment_mode", solver.mode.describe),
     ("random_seed", Outline.option (solver.seed.map toString)),
     ("events", Outline.record "SolverEventSupport"
        [("listener_count", toString solver.listeners.length)])]

end Solver

end PlanSearch

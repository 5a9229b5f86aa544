import PlanSearch.Config.Basic
import PlanSearch.Solver

/-!
# Building solvers

A configuration names variables by entity class and variable name; a `Domain` holds what these
names mean in a problem. Each part of a configuration is turned into the part of the solver that it
describes, and whatever does not fit is reported before solving starts.

A move configuration is elaborated from the top down: each node takes its own order, or that of the
nearest node above it that has one, or the random order; a leaf becomes one selector for each
variable that it matches.
-/

namespace PlanSearch

/-! ## Domains -/

/-- The variables of a problem. -/
structure Domain (S V : Type) where
  definitions : List (Definition S V) := []

/-- Whether a definition is among those asked for. -/
def VariableFilter.matches {S V : Type} (f : VariableFilter) (d : Definition S V) : Bool :=
  (f.entityClass.all fun name => d.entityClass == name) &&
    (f.variableName.all fun name => d.cell.name == name)

namespace Domain

variable {S V : Type}

/-- The definitions asked for, in order; there has to be one. -/
def select (domain : Domain S V) (f : VariableFilter) : Except SolverError (List (Definition S V)) :=
  match domain.definitions.filter f.matches with
  | [] =>
    .error (.configuration <|
      "no planning variable matches entity_class " ++
        Outline.option (f.entityClass.map Text.quote) ++ " and variable_name " ++
        Outline.option (f.variableName.map Text.quote))
  | ds => .ok ds

def describe [ToString V] (domain : Domain S V) : String :=
  Outline.record "SolverDomain"
    [("variables", Outline.list (domain.definitions.map Definition.describe))]

end Domain

/-! ## Acceptance and foragers -/

/-- The number of steps that late acceptance looks back unless it is told otherwise. -/
def AcceptanceConfig.defaultHistory : Nat := 400

def AcceptanceConfig.build {sh : Shape} : AcceptanceConfig → Acceptance sh
  | hillClimbing => .hillClimbing
  | all => .all
  | late size => .late (History.empty (size.elim defaultHistory UInt64.toNat))

def ForagerConfig.build {sh : Shape} (c : ForagerConfig) : Forager sh :=
  let limit := c.limit.map UInt64.toNat
  match c.pick with
  | .first => .first none
  | .best => .best limit 0 none
  | .uniform => .uniform limit []

/-! ## Neighbourhoods -/

namespace MoveConfig

variable {S V : Type}

/-- A single tree as it is, several as a union of the given order. -/
def unite (order : Order) : List (Tree S V) → Tree S V
  | [t] => t
  | ts => .union ts order.isRandom .equal

/-- All changes of all variables, one after another. -/
def everyChange (domain : Domain S V) : Except SolverError (Tree S V) := do
  let ds ← domain.select {}
  return unite .original (ds.map fun d => .change d .original)

mutual

/-- The neighbourhood that a node describes below nodes of the order `above`. -/
def elaborate (domain : Domain S V) (above : OrderChoice) :
    MoveConfig → Except SolverError (Tree S V)
  | change which order => do
    let order := order.resolve above
    let ds ← domain.select which
    return unite order (ds.map fun d => .change d order)
  | swap which order => do
    let order := order.resolve above
    let ds ← domain.select which
    return unite order (ds.map fun d => .swap d.cell order)
  | union children order weights => do
    let order := order.resolve above
    let ts ← elaborateAll domain (.own order) children
    return .union ts order.isRandom (weights.elim .equal .fixed)
  | product children order => do
    let order := order.resolve above
    let ts ← elaborateAll domain (.own order) children
    return .product ts order.isRandom

def elaborateAll (domain : Domain S V) (above : OrderChoice) :
    List MoveConfig → Except SolverError (List (Tree S V))
  | [] => return []
  | c :: cs => do
    let t ← elaborate domain above c
    let ts ← elaborateAll domain above cs
    return t :: ts

end

/-- The neighbourhood of a whole configuration, if nothing is wrong with it. -/
def build (domain : Domain S V) (c : MoveConfig) : Except SolverError (Tree S V) :=
  match c.violation? with
  | some v => .error (.configuration v.message)
  | none => c.elaborate domain .inherit

end MoveConfig

/-! ## Terminations -/

namespace TerminationConfig

variable {sh : Shape}

/-- The termination for the best score, read as a score of the problem. -/
def bestScoreLimit? (c : TerminationConfig) : Except SolverError (Option (Termination sh)) :=
  match c.bestScore with
  | none => .ok none
  | some limit =>
    match (Score.read limit : Except ScoreTextError (Score sh)) with
    | .ok target => .ok (some (.bestScore target))
    | .error e =>
      .error (.configuration s!"best_score_limit {Text.quote limit}: {e.message sh}")

/-- The limits that are set. -/
def limits (c : TerminationConfig) : Except Failure (List (Termination sh)) := do
  let time ← (c.timeLimit).mapError .fault
  let bestScore ← c.bestScoreLimit?.mapError .error
  return [time.map .time,
    c.steps.map fun n => .steps n.toNat,
    c.unimproved.map fun n => .unimproved n.toNat,
    bestScore].filterMap id

/-- A termination that holds when one of the limits is reached; none if no limit is set. -/
def build (c : TerminationConfig) : Except Failure (Option (Termination sh)) := do
  match ← c.limits with
  | [] => return none
  | [t] => return some t
  | ts => return some (.any ts)

/-- No configuration builds no termination. -/
def buildOption (c : Option TerminationConfig) : Except Failure (Option (Termination sh)) :=
  match c with
  | none => .ok none
  | some c => c.build

end TerminationConfig

/-! ## Phases -/

variable {S V : Type} {sh : Shape}

def ConstructionConfig.build (domain : Domain S V) (c : ConstructionConfig) :
    Except Failure (Construction S V sh) := do
  let ds ← (domain.select c.which).mapError .error
  let p : Construction S V sh ← match c.order with
    | .firstFit => pure (.firstFit ds)
    | .firstFitDecreasing => (Construction.firstFitDecreasing ds).mapError .error
  let termination ← TerminationConfig.buildOption c.termination
  return { p with pickEarly := c.pickEarly, termination }

/-- Open parts become hill climbing, a forager for the best score and all changes. -/
def LocalSearchConfig.build (domain : Domain S V) (threads : Nat) (c : LocalSearchConfig) :
    Except Failure (LocalSearch S V sh) := do
  let tree ← (match c.moves with
    | some moves => moves.build domain
    | none => MoveConfig.everyChange domain).mapError .error
  let termination ← TerminationConfig.buildOption c.termination
  return {
    neighbourhood := .ofTree tree
    acceptance := (c.acceptance.getD .hillClimbing).build
    forager := (c.forager.getD {}).build
    termination
    noAcceptedMove := c.noAcceptedMove
    candidateLimit := c.candidateLimit.map UInt64.toNat
    threads := if 1 < threads then some threads else none }

/-- A phase that has been checked. -/
def PhaseConfig.build (domain : Domain S V) (threads : Nat) (c : PhaseConfig) :
    Except Failure (SearchPhase S V sh) := do
  let p : SearchPhase S V sh ← match c with
    | construction c => .construction <$> c.build domain
    | localSearch c => .localSearch <$> c.build domain threads
  p.validate.mapError .error
  return p

/-! ## Solvers -/

namespace SolverConfig

/-- The phases of a configuration that names none. -/
def defaultPhases : List PhaseConfig := [.construction {}, .localSearch {}]

/-- The solver that a configuration describes, on a machine that runs `available` workers at
once. -/
def build (domain : Domain S V) (available : Nat) (c : SolverConfig) :
    Except Failure (Solver (SearchPhase S V sh) S sh) := do
  if let some v := c.violation? then throw (.error (.configuration v.message))
  let termination ← TerminationConfig.buildOption c.termination
  let threads := c.threads.resolve available
  let phases ← (if c.phases.isEmpty then defaultPhases else c.phases).mapM
    (PhaseConfig.build domain threads)
  return { phases, termination, mode := c.mode, seed := c.seed }

end SolverConfig

end PlanSearch

import PlanSearch.Checked
import PlanSearch.Mode
import PlanSearch.Phase.Construction
import PlanSearch.Phase.LocalSearch

/-!
# Configurations

A configuration describes a solver without naming the problem: the mode, the seed, the limits and
the phases. Everything that may be left open is an option; what it then stands for is decided when
the solver is built. A configuration can be well-typed and still make no sense; `violation?` finds
the first thing wrong with it.
-/

namespace PlanSearch

/-! ## Parts -/

/-- How many workers score candidates. -/
inductive ThreadCount where
  /-- As many as the machine runs at once. -/
  | auto
  /-- The search works alone. -/
  | none
  | count (n : UInt64)
  deriving DecidableEq, Repr

instance : Inhabited ThreadCount := ⟨.none⟩

/-- The number of workers, where `available` run at once; one means that the search works alone. -/
def ThreadCount.resolve (available : Nat) : ThreadCount → Nat
  | auto => available
  | none => 1
  | count n => max n.toNat 1

/-- Limits, any of which ends what it applies to. -/
structure TerminationConfig where
  seconds : Option UInt64 := none
  milliseconds : Option UInt64 := none
  /-- The text of a score. -/
  bestScore : Option String := none
  steps : Option UInt64 := none
  unimproved : Option UInt64 := none
  deriving DecidableEq, Repr, Inhabited

namespace TerminationConfig

/-- No limit is set. -/
def isEmpty (c : TerminationConfig) : Bool := c == {}

/-- Both parts of the time limit in milliseconds; no time at all is no limit. -/
def timeLimit (c : TerminationConfig) : Checked (Option Nat) := do
  let seconds ← Checked.count ((c.seconds.getD 0).toNat * 1000)
  let total ← Checked.count (seconds + (c.milliseconds.getD 0).toNat)
  return if total = 0 then none else some total

end TerminationConfig

/-- The variables that a part applies to, all of them where nothing is named. -/
structure VariableFilter where
  entityClass : Option String := none
  variableName : Option String := none
  deriving DecidableEq, Repr, Inhabited

/-- The order in which construction visits unassigned entities. -/
inductive ConstructionOrder where
  | firstFit
  | firstFitDecreasing
  deriving DecidableEq, Repr

instance : Inhabited ConstructionOrder := ⟨.firstFit⟩

structure ConstructionConfig where
  order : ConstructionOrder := .firstFit
  pickEarly : PickEarly := .never
  which : VariableFilter := {}
  termination : Option TerminationConfig := none
  deriving Inhabited

inductive AcceptanceConfig where
  | hillClimbing
  | all
  /-- With the number of steps to look back. -/
  | late (size : Option UInt64)
  deriving DecidableEq, Repr

instance : Inhabited AcceptanceConfig := ⟨.hillClimbing⟩

/-- Which of the accepted candidates wins a step. -/
inductive PickRule where
  | first
  | best
  | uniform
  deriving DecidableEq, Repr

instance : Inhabited PickRule := ⟨.best⟩

structure ForagerConfig where
  pick : PickRule := .best
  /-- The number of accepted candidates that is enough. -/
  limit : Option UInt64 := none
  deriving DecidableEq, Repr, Inhabited

inductive MoveConfig where
  | change (which : VariableFilter) (order : OrderChoice)
  | swap (which : VariableFilter) (order : OrderChoice)
  | union (children : List MoveConfig) (order : OrderChoice) (weights : Option (List Float))
  | product (children : List MoveConfig) (order : OrderChoice)

structure LocalSearchConfig where
  acceptance : Option AcceptanceConfig := none
  forager : Option ForagerConfig := none
  moves : Option MoveConfig := none
  termination : Option TerminationConfig := none
  noAcceptedMove : NoAcceptedMove := .terminate
  candidateLimit : Option UInt64 := none
  deriving Inhabited

inductive PhaseConfig where
  | construction (c : ConstructionConfig)
  | localSearch (c : LocalSearchConfig)

structure SolverConfig where
  mode : Mode := .reproducible
  seed : Option UInt64 := none
  threads : ThreadCount := .none
  termination : Option TerminationConfig := none
  phases : List PhaseConfig := []
  deriving Inhabited

namespace SolverConfig

/-! ## Changing a configuration -/

/-- Sets the seconds of the time limit; other limits stay. -/
def withTerminationSeconds (seconds : UInt64) (c : SolverConfig) : SolverConfig :=
  { c with termination := some { c.termination.getD {} with seconds := some seconds } }

def addPhase (p : PhaseConfig) (c : SolverConfig) : SolverConfig :=
  { c with phases := c.phases ++ [p] }

/-! ## What a configuration says -/

/-- The time limit of the whole solve in milliseconds. -/
def timeLimit (c : SolverConfig) : Checked (Option Nat) :=
  match c.termination with
  | none => .ok none
  | some limits => limits.timeLimit

/-- The seed that is used; a run that is not to be reproduced has none. -/
def effectiveSeed (c : SolverConfig) : Option UInt64 :=
  if c.mode.isReproducible then some (c.seed.getD 0) else none

end SolverConfig

/-! ## Violations -/

/-- What is wrong with a configuration. -/
inductive Violation where
  | noThreads
  | noCandidates
  | noHistory
  | noAcceptedCandidates
  | emptyUnion
  | weightCount (weights children : Nat)
  | badWeight
  | emptyProduct
  | inPhase (index : Nat) (cause : Violation)
  deriving DecidableEq, Repr

def Violation.message : Violation → String
  | noThreads => "move_thread_count must be at least 1"
  | noCandidates => "step_candidate_limit must be at least 1"
  | noHistory => "late_acceptance_size must be at least 1"
  | noAcceptedCandidates => "accepted_count_limit must be at least 1"
  | emptyUnion => "union_move_selector needs at least one child"
  | weightCount weights children =>
    s!"union_move_selector has {weights} weights for {children} children"
  | badWeight => "union weights must be finite and non-negative"
  | emptyProduct => "cartesian_product_move_selector needs at least one child"
  | inPhase index cause => s!"phase {index}: {cause.message}"

namespace MoveConfig

/-- What is wrong with the weights of `n` children. -/
def weightViolation? (n : Nat) (weights : List Float) : Option Violation :=
  if weights.length ≠ n then some (.weightCount weights.length n)
  else if weights.any fun w => !w.isFinite || w < 0.0 then some .badWeight
  else none

mutual

/-- The first violation from the top down and from left to right. -/
def violation? : MoveConfig → Option Violation
  | change _ _ => none
  | swap _ _ => none
  | union children _ weights =>
    if children.isEmpty then some .emptyUnion
    else (weights.bind (weightViolation? children.length)).or (violationIn? children)
  | product children _ =>
    if children.isEmpty then some .emptyProduct else violationIn? children

def violationIn? : List MoveConfig → Option Violation
  | [] => none
  | c :: cs => (violation? c).or (violationIn? cs)

end

end MoveConfig

def AcceptanceConfig.violation? : AcceptanceConfig → Option Violation
  | late (some 0) => some .noHistory
  | _ => none

def ForagerConfig.violation? (c : ForagerConfig) : Option Violation :=
  if c.limit = some 0 then some .noAcceptedCandidates else none

def LocalSearchConfig.violation? (c : LocalSearchConfig) : Option Violation :=
  (if c.candidateLimit = some 0 then some .noCandidates else none)
    |>.or (c.acceptance.bind AcceptanceConfig.violation?)
    |>.or (c.forager.bind ForagerConfig.violation?)
    |>.or (c.moves.bind MoveConfig.violation?)

def PhaseConfig.violation? : PhaseConfig → Option Violation
  | construction _ => none
  | localSearch c => c.violation?

namespace SolverConfig

/-- The first violation of the phases, numbered from `index`. -/
def phaseViolation? (index : Nat) : List PhaseConfig → Option Violation
  | [] => none
  | p :: ps => (p.violation?.map (.inPhase index)).or (phaseViolation? (index + 1) ps)

/-- The first thing wrong with a configuration. -/
def violation? (c : SolverConfig) : Option Violation :=
  (if c.threads = .count 0 then some .noThreads else none).or (phaseViolation? 0 c.phases)

end SolverConfig

end PlanSearch

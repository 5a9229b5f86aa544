import PlanSearch.Config.Basic
import PlanSearch.Document.Decode

/-!
# Reading configurations from documents

The parts of a configuration are tables whose fields may be left out; where a part comes in several
kinds, the field `type` names the kind. In such a table the kinds of scalars are settled before any
field is read.
-/

namespace PlanSearch

open Decoder

/-! ## Names -/

def Mode.names : List (String × Mode) :=
  [("non_reproducible", .nonReproducible), ("reproducible", .reproducible),
   ("fast_assert", .fastAssert), ("full_assert", .fullAssert)]

def OrderChoice.names : List (String × OrderChoice) :=
  [("inherit", .inherit), ("original", .own .original), ("random", .own .random),
   ("shuffled", .own .shuffled)]

def ConstructionOrder.names : List (String × ConstructionOrder) :=
  [("first_fit", .firstFit), ("first_fit_decreasing", .firstFitDecreasing)]

def PickEarly.names : List (String × PickEarly) :=
  [("never", .never), ("first_non_deteriorating_score", .nonDeteriorating),
   ("first_feasible_score", .feasible)]

def PickRule.names : List (String × PickRule) :=
  [("first_accepted", .first), ("best_score", .best), ("probabilistic", .uniform)]

def NoAcceptedMove.names : List (String × NoAcceptedMove) :=
  [("terminate", .terminate), ("continue", .proceed)]

/-! ## Decoders -/

/-- The settled entries of a table, and the kind that it names. -/
def Decoder.kinded : Decoder (String × List (String × Document)) := fun d => do
  let fields ← entries (← d.settle)
  let kind ← required fields "type" text
  return (kind, fields)

def Mode.decode (form : VariantForm) : Decoder Mode := oneOf form Mode.names

def OrderChoice.decode : Decoder OrderChoice := oneOf .key OrderChoice.names

def ThreadCount.decode (form : VariantForm) : Decoder ThreadCount := fun d => do
  match ← variant form d with
  | ("count", some n) => return .count (← unsigned n)
  | ("count", .none) => throw (.unexpected "a number of threads")
  | (name, value?) =>
    if value?.all isNothing then
      match name with
      | "auto" => return .auto
      | "none" => return .none
      | _ => throw (.unknownVariant name)
    else throw (.unexpected "a variant without a value")

def TerminationConfig.decode : Decoder TerminationConfig := fun d => do
  let fields ← entries d
  return {
    seconds := ← option fields "seconds_spent_limit" unsigned
    milliseconds := ← option fields "milliseconds_spent_limit" unsigned
    bestScore := ← option fields "best_score_limit" text
    steps := ← option fields "step_count_limit" unsigned
    unimproved := ← option fields "unimproved_step_count_limit" unsigned }

def VariableFilter.decodeFrom (fields : List (String × Document)) :
    Except DocumentError VariableFilter := do
  return {
    entityClass := ← option fields "entity_class" text
    variableName := ← option fields "variable_name" text }

def VariableFilter.decode : Decoder VariableFilter := fun d => do decodeFrom (← entries d)

def ConstructionConfig.decodeFrom (fields : List (String × Document)) :
    Except DocumentError ConstructionConfig := do
  return {
    order := ← defaulted fields "construction_heuristic_type" .firstFit
      (oneOf .key ConstructionOrder.names)
    pickEarly := ← defaulted fields "pick_early_type" .never (oneOf .key PickEarly.names)
    which := ← VariableFilter.decodeFrom fields
    termination := ← option fields "termination" TerminationConfig.decode }

def AcceptanceConfig.decode : Decoder AcceptanceConfig := fun d => do
  match ← kinded d with
  | ("hill_climbing", _) => return .hillClimbing
  | ("accept_all", _) => return .all
  | ("late_acceptance", fields) =>
    return .late (← option fields "late_acceptance_size" unsigned)
  | (kind, _) => throw (.unknownVariant kind)

def ForagerConfig.decode : Decoder ForagerConfig := fun d => do
  let fields ← entries d
  return {
    pick := ← defaulted fields "pick" .best (oneOf .key PickRule.names)
    limit := ← option fields "accepted_count_limit" unsigned }

namespace MoveConfig

/-- A table that is nested at most `depth` deep. -/
def decodeWithin : Nat → Decoder MoveConfig
  | 0, _ => .error (.unexpected "a table that is nested less deeply")
  | depth + 1, d => do
    match ← kinded d with
    | ("change_move_selector", fields) =>
      return .change (← VariableFilter.decodeFrom fields)
        (← defaulted fields "selection_order" .inherit OrderChoice.decode)
    | ("swap_move_selector", fields) =>
      return .swap (← VariableFilter.decodeFrom fields)
        (← defaulted fields "selection_order" .inherit OrderChoice.decode)
    | ("union_move_selector", fields) =>
      return .union (← required fields "selectors" (list (decodeWithin depth)))
        (← defaulted fields "selection_order" .inherit OrderChoice.decode)
        (← option fields "weights" (list float))
    | ("cartesian_product_move_selector", fields) =>
      return .product (← required fields "selectors" (list (decodeWithin depth)))
        (← defaulted fields "selection_order" .inherit OrderChoice.decode)
    | (kind, _) => throw (.unknownVariant kind)

def decode : Decoder MoveConfig := fun d => decodeWithin (d.depth + 1) d

end MoveConfig

def LocalSearchConfig.decodeFrom (fields : List (String × Document)) :
    Except DocumentError LocalSearchConfig := do
  return {
    acceptance := ← option fields "acceptor" AcceptanceConfig.decode
    forager := ← option fields "forager" ForagerConfig.decode
    moves := ← option fields "move_selector" MoveConfig.decode
    termination := ← option fields "termination" TerminationConfig.decode
    noAcceptedMove := ← defaulted fields "no_accepted_move_policy" .terminate
      (oneOf .key NoAcceptedMove.names)
    candidateLimit := ← option fields "step_candidate_limit" unsigned }

def PhaseConfig.decode : Decoder PhaseConfig := fun d => do
  match ← kinded d with
  | ("construction_heuristic", fields) =>
    return .construction (← ConstructionConfig.decodeFrom fields)
  | ("local_search", fields) => return .localSearch (← LocalSearchConfig.decodeFrom fields)
  | (kind, _) => throw (.unknownVariant kind)

/-- A whole configuration. `form` says how the document writes variants that are not settled. -/
def SolverConfig.decode (form : VariantForm) : Decoder SolverConfig := fun d => do
  let fields ← entries d
  return {
    mode := ← defaulted fields "environment_mode" .reproducible (Mode.decode form)
    seed := ← option fields "random_seed" unsigned
    threads := ← defaulted fields "move_thread_count" .none (ThreadCount.decode form)
    termination := ← option fields "termination" TerminationConfig.decode
    phases := ← defaulted fields "phases" [] (list PhaseConfig.decode) }

end PlanSearch

import PlanSearch.Config.Decode
import PlanSearch.Document.Encode

/-!
# Writing configurations as documents

The document of a configuration has every field: open options are null, and defaults are filled in.
-/

namespace PlanSearch

open Document

def ThreadCount.encode : ThreadCount → Document
  | auto => .text "auto"
  | none => .text "none"
  | count n => .table [("count", ofUnsigned n)]

def TerminationConfig.encode (c : TerminationConfig) : Document :=
  .table
    [("seconds_spent_limit", ofOption ofUnsigned c.seconds),
     ("milliseconds_spent_limit", ofOption ofUnsigned c.milliseconds),
     ("best_score_limit", ofOption .text c.bestScore),
     ("step_count_limit", ofOption ofUnsigned c.steps),
     ("unimproved_step_count_limit", ofOption ofUnsigned c.unimproved)]

def VariableFilter.fields (c : VariableFilter) : List (String × Document) :=
  [("entity_class", ofOption .text c.entityClass), ("variable_name", ofOption .text c.variableName)]

def AcceptanceConfig.encode : AcceptanceConfig → Document
  | hillClimbing => .table [("type", .text "hill_climbing")]
  | all => .table [("type", .text "accept_all")]
  | late size =>
    .table [("type", .text "late_acceptance"), ("late_acceptance_size", ofOption ofUnsigned size)]

def ForagerConfig.encode (c : ForagerConfig) : Document :=
  .table
    [("pick", ofName PickRule.names c.pick), ("accepted_count_limit", ofOption ofUnsigned c.limit)]

namespace MoveConfig

mutual

def encode : MoveConfig → Document
  | change which order =>
    .table (("type", .text "change_move_selector") :: which.fields ++
      [("selection_order", ofName OrderChoice.names order)])
  | swap which order =>
    .table (("type", .text "swap_move_selector") :: which.fields ++
      [("selection_order", ofName OrderChoice.names order)])
  | union children order weights =>
    .table
      [("type", .text "union_move_selector"),
       ("selectors", .list (encodeAll children)),
       ("selection_order", ofName OrderChoice.names order),
       ("weights", ofOption (fun ws => .list (ws.map .decimal)) weights)]
  | product children order =>
    .table
      [("type", .text "cartesian_product_move_selector"),
       ("selectors", .list (encodeAll children)),
       ("selection_order", ofName OrderChoice.names order)]

def encodeAll : List MoveConfig → List Document
  | [] => []
  | c :: cs => encode c :: encodeAll cs

end

end MoveConfig

def PhaseConfig.encode : PhaseConfig → Document
  | construction c =>
    .table (("type", .text "construction_heuristic") ::
      ("construction_heuristic_type", ofName ConstructionOrder.names c.order) ::
      ("pick_early_type", ofName PickEarly.names c.pickEarly) :: c.which.fields ++
      [("termination", ofOption TerminationConfig.encode c.termination)])
  | localSearch c =>
    .table
      [("type", .text "local_search"),
       ("acceptor", ofOption AcceptanceConfig.encode c.acceptance),
       ("forager", ofOption ForagerConfig.encode c.forager),
       ("move_selector", ofOption MoveConfig.encode c.moves),
       ("termination", ofOption TerminationConfig.encode c.termination),
       ("no_accepted_move_policy", ofName NoAcceptedMove.names c.noAcceptedMove),
       ("step_candidate_limit", ofOption ofUnsigned c.candidateLimit)]

def SolverConfig.encode (c : SolverConfig) : Document :=
  .table
    [("environment_mode", ofName Mode.names c.mode),
     ("random_seed", ofOption ofUnsigned c.seed),
     ("move_thread_count", c.threads.encode),
     ("termination", ofOption TerminationConfig.encode c.termination),
     ("phases", .list (c.phases.map PhaseConfig.encode))]

end PlanSearch

import PlanSearch.Config.Decode

/-!
# Amendments to a configuration

Single settings of a configuration that are replaced, and what follows from the settings.
-/

namespace PlanSearch.SolverConfig

open Decoder

/-- Sets one thing anew: a list of its name and its value. A phase is added to the others. -/
def amend (c : SolverConfig) (d : Document) : Except DocumentError SolverConfig := do
  let value := d.item 1
  match ← text (d.item 0) with
  | "termination_seconds" => return c.withTerminationSeconds (← unsigned value)
  | "termination" => return { c with termination := some (← TerminationConfig.decode value) }
  | "mode" => return { c with mode := ← Mode.decode .key value }
  | "seed" => return { c with seed := some (← unsigned value) }
  | "threads" => return { c with threads := ← ThreadCount.decode .key value }
  | "phase" => return c.addPhase (← PhaseConfig.decode value)
  | name => throw (.unknownVariant name)

end PlanSearch.SolverConfig

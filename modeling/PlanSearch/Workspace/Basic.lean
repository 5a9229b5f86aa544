import PlanSearch.Error
import PlanSearch.Problem
import PlanSearch.Score.Text

/-!
# Workspaces

A workspace owns the plan that is being worked on and keeps its score. Whoever changes a planning
variable announces the change before and after; the score always reflects what was announced.
-/

namespace PlanSearch

class Workspace (W : Type) (S : outParam Type) (sh : outParam Shape) where
  plan : W → S
  /-- Changes the plan without announcing anything. -/
  modify : (S → S) → W → W
  /-- Takes over another plan and starts over. -/
  reset : S → W → W
  /-- The score of the plan, as far as changes were announced. -/
  score : Step W (Score sh)
  /-- The score of the plan from scratch; the workspace stays as it is. -/
  fullScore : W → Checked (Score sh)
  beforeChange : Fact → W → W
  afterChange : Fact → W → W
  afterAdded : Fact → W → W
  beforeRemoved : Fact → W → W
  /-- How often a score was calculated. -/
  calculations : W → Nat
  isIncremental : W → Bool

namespace Workspace

variable {W S : Type} {sh : Shape} [Workspace W S sh]

/-- The score of the plan, as an action. -/
def scoreNow : Action W (Score sh) := fun w =>
  match score w with
  | .ok a w => .ok a w
  | .error f w => .error (.fault f) w

/-- The score of the plan, which has to be the score from scratch. -/
def checkedScore (context : String) : Action W (Score sh) := do
  let incremental ← scoreNow
  let full ← Action.ofChecked (fullScore (← get))
  if incremental = full then return incremental
  else throw (.error (.scoreCorruption context incremental.toText full.toText))

/-- Starts over with the plan as it is. -/
def restart (w : W) : W := reset (plan w) w

end Workspace

end PlanSearch

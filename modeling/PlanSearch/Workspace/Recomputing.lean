import PlanSearch.Workspace.Basic

/-!
# Recomputing workspaces

The score is computed from scratch whenever the plan may have changed since the last time.
-/

namespace PlanSearch

structure RecomputingWorkspace (S : Type) (sh : Shape) where
  plan : S
  calculate : S → Checked (Score sh)
  /-- The score, if nothing changed since it was computed. -/
  cached : Option (Score sh) := none
  calculations : Nat := 0

namespace RecomputingWorkspace

variable {S : Type} {sh : Shape} [Plan S sh]

def forget (w : RecomputingWorkspace S sh) : RecomputingWorkspace S sh := { w with cached := none }

def score : Step (RecomputingWorkspace S sh) (Score sh) := fun w =>
  match w.cached with
  | some score => .ok score w
  | none =>
    match w.calculate w.plan with
    | .error f => .error f w
    | .ok score =>
      .ok score
        { w with
          plan := Plan.setScore (some score) w.plan
          cached := some score
          calculations := w.calculations + 1 }

instance : Workspace (RecomputingWorkspace S sh) S sh where
  plan := plan
  modify f w := { w.forget with plan := f w.plan }
  reset s w := { w.forget with plan := s }
  score := score
  fullScore w := w.calculate w.plan
  beforeChange _ w := w.forget
  afterChange _ w := w.forget
  afterAdded _ w := w.forget
  beforeRemoved _ w := w.forget
  calculations := calculations
  isIncremental _ := false

end RecomputingWorkspace

end PlanSearch

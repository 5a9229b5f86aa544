import PlanSearch.Network.Session
import PlanSearch.Workspace.Basic

/-!
# Incremental workspaces

The score is kept by a session of a constraint network: announced changes are queued there and
settled when the score is asked for.
-/

namespace PlanSearch

structure IncrementalWorkspace (S : Type) (sh : Shape) where
  plan : S
  session : Session S sh
  calculations : Nat := 0

namespace IncrementalWorkspace

variable {S : Type} {sh : Shape} [Plan S sh]

def new (network : Network S sh) (plan : S) : IncrementalWorkspace S sh where
  plan
  session := network.sessionFor plan

/-- Settles the session, stores the score in the plan and counts the calculation. -/
def score : Step (IncrementalWorkspace S sh) (Score sh) := fun ⟨plan, session, calculations⟩ =>
  match Session.settledScore plan session with
  | .error f session => .error f { plan, session, calculations }
  | .ok score session =>
    .ok score
      { plan := Plan.setScore (some score) plan, session, calculations := calculations + 1 }

/-- The score and match count of every constraint. -/
def totals : Step (IncrementalWorkspace S sh) (List (ConstraintTotal sh)) :=
  fun ⟨plan, session, calculations⟩ =>
    match Session.constraintTotals plan session with
    | .error f session => .error f { plan, session, calculations }
    | .ok totals session => .ok totals { plan, session, calculations }

instance : Workspace (IncrementalWorkspace S sh) S sh where
  plan := plan
  modify f w := { w with plan := f w.plan }
  reset s w := { w with plan := s, session := w.session.network.sessionFor s }
  score := score
  fullScore w := w.session.network.fullScore w.plan
  beforeChange _ w := w
  afterChange f w := { w with session := w.session.update f }
  afterAdded f w := { w with session := w.session.insert f }
  beforeRemoved f w := { w with session := w.session.retract f }
  calculations := calculations
  isIncremental _ := true

end IncrementalWorkspace

end PlanSearch

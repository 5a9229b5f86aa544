import PlanSearch.Score.Text
import PlanSearch.Text.Outline

/-!
# Terminations

Conditions under which a phase or a run stops. A condition looks at what has been reached so far;
it is asked at the boundary before each step and each phase.
-/

namespace PlanSearch

/-- What has been reached so far. Times are in milliseconds. -/
structure Progress (sh : Shape) where
  elapsed : Nat := 0
  steps : Nat := 0
  /-- Steps since the best plan last improved. -/
  unimproved : Nat := 0
  bestScore : Option (Score sh) := none

inductive Termination (sh : Shape) where
  | steps (limit : Nat)
  | unimproved (limit : Nat)
  | time (milliseconds : Nat)
  | bestScore (target : Score sh)
  | feasible
  /-- A request from outside. -/
  | requested (raised : Bool)
  | any (children : List (Termination sh))
  /-- All of the children, if there are any. -/
  | all (children : List (Termination sh))

namespace Termination

variable {sh : Shape}

mutual

def holds (p : Progress sh) : Termination sh → Bool
  | steps limit => limit ≤ p.steps
  | unimproved limit => limit ≤ p.unimproved
  | time milliseconds => milliseconds ≤ p.elapsed
  | bestScore target => p.bestScore.any fun best => target ≤ best
  | feasible => p.bestScore.any Score.isFeasible
  | requested raised => raised
  | any children => someHolds p children
  | all children => !children.isEmpty && everyHolds p children

def someHolds (p : Progress sh) : List (Termination sh) → Bool
  | [] => false
  | t :: ts => holds p t || someHolds p ts

def everyHolds (p : Progress sh) : List (Termination sh) → Bool
  | [] => true
  | t :: ts => holds p t && everyHolds p ts

end

/-- A time in seconds, or in milliseconds below one second. -/
def durationText (milliseconds : Nat) : String :=
  if milliseconds = 0 then "0ns"
  else if milliseconds < 1000 then toString milliseconds ++ "ms"
  else
    let rest := milliseconds % 1000
    let digits := ((toString (1000 + rest)).toList.drop 1).reverse.dropWhile (· == '0') |>.reverse
    toString (milliseconds / 1000) ++ (if rest = 0 then "" else "." ++ String.ofList digits) ++ "s"

mutual

def describe : Termination sh → String
  | steps limit => Outline.record "StepCountTermination" [("limit", toString limit)]
  | unimproved limit => Outline.record "UnimprovedStepCountTermination" [("limit", toString limit)]
  | time milliseconds => Outline.record "TimeTermination" [("limit", durationText milliseconds)]
  | bestScore target => Outline.record "BestScoreTermination" [("target", target.describe)]
  | feasible => "BestScoreFeasibleTermination"
  | requested raised => Outline.record "ExternalTermination" [("flag", toString raised)]
  | any children =>
    Outline.record "OrTermination" [("children", Outline.list (describeAll children))]
  | all children =>
    Outline.record "AndTermination" [("children", Outline.list (describeAll children))]

def describeAll : List (Termination sh) → List String
  | [] => []
  | t :: ts => describe t :: describeAll ts

end

mutual

/-- Raises the `n`-th request from outside, counted depth first, and says how many are still to
come when it lies further on. -/
def raise (n : Nat) : Termination sh → Termination sh × Option Nat
  | requested raised => if n = 0 then (requested true, none) else (requested raised, some (n - 1))
  | any children => let (children, n) := raiseIn n children; (any children, n)
  | all children => let (children, n) := raiseIn n children; (all children, n)
  | t => (t, some n)

def raiseIn (n : Nat) : List (Termination sh) → List (Termination sh) × Option Nat
  | [] => ([], some n)
  | t :: ts =>
    match raise n t with
    | (t, none) => (t :: ts, none)
    | (t, some n) => let (ts, n) := raiseIn n ts; (t :: ts, n)

end

end Termination

end PlanSearch

import PlanSearch.Codec.Editable
import PlanSearch.Codec.Lifecycle
import PlanSearch.Solver

/-!
# Runs in documents

What listeners were told as a log, and what a solve ended with.
-/

namespace PlanSearch

variable {S : Type} {sh : Shape} [Editable S]

namespace Notice

/-- A notice; the end of a step tells the plan where `withPlans` asks for it. -/
def encode (withPlans : Bool) : Notice S sh → Document
  | improved plan score => .list [.text "best", score.encode, Editable.encode plan]
  | event e c =>
    .list <|
      [e.encode, .ofNat c.phaseIndex, .ofNat c.stepIndex, .ofOption Score.encode c.bestScore,
        .ofOption Score.encode c.stepScore] ++
      if withPlans && e == .stepEnded then [Editable.encode c.plan] else []

/-- The notices, oldest first. -/
def log (withPlans : Bool) (trace : List (Notice S sh)) : Document :=
  .list (trace.reverse.map (encode withPlans))

/-- How often the best plan improved, and how often each event was heard. -/
def tally (trace : List (Notice S sh)) : Document :=
  .list [.ofNat (trace.countP isImprovement),
    .list (Event.all.map fun e => .ofNat (trace.countP (isEvent e)))]

/-- The plans that were the best ones, with their scores. -/
def improvements (trace : List (Notice S sh)) : Document :=
  .list (trace.reverse.filterMap fun
    | improved plan score => some (.list [score.encode, Editable.encode plan])
    | event _ _ => none)

end Notice

/-- Asks a run to stop at the `n`-th end of a step. -/
def Listener.afterSteps (n : Nat) : Listener S sh where
  stops trace := match trace with
    | notice :: _ => notice.isEvent .stepEnded && trace.countP (Notice.isEvent .stepEnded) == n
    | [] => false

/-- The best score and plan so far. -/
def Best.encode (best : Option (Best S sh)) : Document :=
  .list [.ofOption (fun b : Best S sh => b.rank.score.encode) best,
    .ofOption (fun b : Best S sh => Editable.encode b.plan) best]

def Solved.encode [Plan S sh] (x : Solved S sh) : Document :=
  .table
    [("score", x.score.encode), ("stored", .ofOption Score.encode (Plan.score x.plan)),
     ("solution", Editable.encode x.plan),
     ("uninitialized", .ofNat (Plan.unassignedCount x.plan)), ("stats", x.stats.encode)]

end PlanSearch

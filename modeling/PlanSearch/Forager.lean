import PlanSearch.Lifecycle
import PlanSearch.Random.Source

/-!
# Foragers

A forager collects the accepted candidates of one step and picks the step's winner among them. It
knows candidates by their index in the step's arena and by their score.
-/

namespace PlanSearch

/-- A collected candidate. -/
structure Pick (sh : Shape) where
  index : Nat
  score : Score sh
  deriving DecidableEq

inductive Forager (sh : Shape) where
  /-- Takes the first accepted candidate. -/
  | first (accepted : Option (Pick sh))
  /-- Takes the earliest of the best, once `limit` candidates were accepted. -/
  | best (limit : Option Nat) (count : Nat) (leader : Option (Pick sh))
  /-- Takes any, once `limit` candidates were accepted. -/
  | uniform (limit : Option Nat) (accepted : List (Pick sh))

namespace Forager

variable {sh : Shape}

def add (f : Forager sh) (p : Pick sh) : Forager sh :=
  match f with
  | first none => first (some p)
  | first (some q) => first (some q)
  | best limit count none => best limit (count + 1) (some p)
  | best limit count (some q) =>
    best limit (count + 1) (some (if q.score < p.score then p else q))
  | uniform limit accepted => uniform limit (accepted ++ [p])

/-- Whether nothing more needs to be collected. -/
def isDone : Forager sh → Bool
  | first accepted => accepted.isSome
  | best limit count _ => limit.any fun limit => limit ≤ count
  | uniform limit accepted => limit.any fun limit => limit ≤ accepted.length

/-- Whether collecting may end before the candidates do. -/
def canStopEarly : Forager sh → Bool
  | first _ => true
  | best limit _ _ => limit.isSome
  | uniform limit _ => limit.isSome

def clear : Forager sh → Forager sh
  | first _ => first none
  | best limit _ _ => best limit 0 none
  | uniform limit _ => uniform limit []

/-- The winner, which leaves the forager. -/
def pick (f : Forager sh) (source : Source) : Option (Pick sh) × Forager sh × Source :=
  match f with
  | first accepted => (accepted, first none, source)
  | best limit count leader => (leader, best limit count none, source)
  | uniform limit [] => (none, uniform limit [], source)
  | uniform limit accepted =>
    let (i, source) := source.below accepted.length
    (accepted[i]?, uniform limit [], source)

def hear (f : Forager sh) (e : Event) : Forager sh :=
  if e = .stepStarted then f.clear else f

def describe : Forager sh → String
  | first accepted => Outline.record "FirstAcceptedForager" [("accepted", toString accepted.isSome)]
  | best limit count _ =>
    Outline.record "BestScoreForager"
      [("accepted_count_limit", Outline.option (limit.map toString)),
       ("accepted_count", toString count)]
  | uniform limit accepted =>
    Outline.record "ProbabilisticForager"
      [("accepted_count_limit", Outline.option (limit.map toString)),
       ("accepted_count", toString accepted.length)]

end Forager

end PlanSearch

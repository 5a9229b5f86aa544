import PlanSearch.Codec.Score
import PlanSearch.Lifecycle
import PlanSearch.Random.Source
import PlanSearch.Stats
import PlanSearch.Termination

/-!
# Events, statistics and terminations in documents
-/

namespace PlanSearch

open Decoder

/-! ## Events -/

def Event.names : List (String × Event) :=
  [("solving_started", .solvingStarted), ("phase_started", .phaseStarted),
   ("step_started", .stepStarted), ("step_ended", .stepEnded), ("phase_ended", .phaseEnded),
   ("solving_ended", .solvingEnded)]

def Event.decode : Decoder Event := oneOf .key Event.names

def Event.encode (e : Event) : Document := .ofName Event.names e

def Tracker.encode (t : Tracker) : Document :=
  .table
    [("counts", .list (Event.all.map fun e => .ofNat (t.count e))),
     ("violations", .ofNat t.violations), ("balanced", .bool t.isBalanced)]

/-! ## Statistics -/

def Stats.encode (s : Stats) : Document :=
  .table
    [("steps", .ofNat s.steps), ("evaluated", .ofNat s.evaluated), ("accepted", .ofNat s.accepted),
     ("illegal", .ofNat s.illegal), ("improvements", .ofNat s.improvements),
     ("calculations", .ofNat s.calculations), ("acceptance_rate", .decimal s.acceptanceRate)]

/-! ## Random sources -/

/-- A seed, or a tape of words; nothing stands for the seed zero. -/
def Source.decode : Decoder Source := fun d => do
  if d.has "tape" then return .ofTape (← list unsigned (d.get "tape"))
  else return .ofSeed (← orElse 0 unsigned (d.get "seed"))

/-! ## Terminations -/

variable {sh : Shape}

def Progress.encode (p : Progress sh) : Document :=
  .table
    [("steps", .ofNat p.steps), ("unimproved", .ofNat p.unimproved),
     ("best", .ofOption Score.encode p.bestScore)]

def Progress.decode : Decoder (Progress sh) := fun d => do
  return {
    elapsed := ← orElse 0 natural (d.get "elapsed_ms")
    steps := ← orElse 0 natural (d.get "steps")
    unimproved := ← orElse 0 natural (d.get "unimproved")
    bestScore := ← optional Score.decode (d.get "best") }

namespace Termination

/-- A tree that is nested at most `depth` deep. -/
def decodeWithin : Nat → Decoder (Termination sh)
  | 0, _ => .error (.unexpected "a tree that is nested less deeply")
  | depth + 1, d => do
    match d with
    | .text "feasible" => return .feasible
    | .text "external" => return .requested false
    | d =>
      if d.has "steps" then return .steps (← natural (d.get "steps"))
      else if d.has "unimproved" then return .unimproved (← natural (d.get "unimproved"))
      else if d.has "time_ms" then return .time (← natural (d.get "time_ms"))
      else if d.has "best" then return .bestScore (← Score.decode (d.get "best"))
      else if d.has "or" then return .any (← list (decodeWithin depth) (d.get "or"))
      else if d.has "and" then return .all (← list (decodeWithin depth) (d.get "and"))
      else throw (.unexpected "a termination")

def decode : Decoder (Termination sh) := fun d => decodeWithin (d.depth + 1) d

end Termination

end PlanSearch

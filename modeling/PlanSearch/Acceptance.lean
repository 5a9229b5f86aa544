import PlanSearch.Lifecycle

/-!
# Acceptance

Which candidates of a local search may become its next step. Hill climbing wants a score not below
that of the last step; late acceptance also takes one not below that of a step some way back.
-/

namespace PlanSearch

/-- The scores of the last steps as a ring of fixed size. -/
structure History (sh : Shape) where
  scores : List (Option (Score sh))
  position : Nat := 0

namespace History

variable {sh : Shape}

/-- No score is known yet. A ring has at least one place. -/
def empty (size : Nat) : History sh := { scores := List.replicate (max size 1) none }

def size (h : History sh) : Nat := h.scores.length

/-- The score that has been in the ring longest. -/
def oldest (h : History sh) : Option (Score sh) := (h.scores[h.position]?).join

/-- Puts a score in the place of the oldest. -/
def push (h : History sh) (score : Score sh) : History sh where
  scores := h.scores.set h.position (some score)
  position := (h.position + 1) % h.scores.length

/-- Every place holds `score`. -/
def fill (h : History sh) (score : Option (Score sh)) : History sh where
  scores := h.scores.map fun _ => score

end History

inductive Acceptance (sh : Shape) where
  | hillClimbing
  | all
  | late (history : History sh)

namespace Acceptance

variable {sh : Shape}

/-- Whether a candidate with score `candidate` may follow a step with score `last`. -/
def accepts (a : Acceptance sh) (last candidate : Score sh) : Bool :=
  match a with
  | hillClimbing => last ≤ candidate
  | all => true
  | late history => last ≤ candidate || history.oldest.all fun score => score ≤ candidate

/-- Late acceptance remembers the score of the phase start and those of the steps. -/
def hear (a : Acceptance sh) (e : Event) (stepScore : Option (Score sh)) : Acceptance sh :=
  match a, e, stepScore with
  | late history, .phaseStarted, score => late (history.fill score)
  | late history, .stepEnded, some score => late (history.push score)
  | a, _, _ => a

def describe : Acceptance sh → String
  | hillClimbing => "HillClimbingAcceptor"
  | all => "AcceptAllAcceptor"
  | late history =>
    Outline.record "LateAcceptanceAcceptor"
      [("late_acceptance_size", toString history.size), ("current_index", toString history.position)]

end Acceptance

end PlanSearch

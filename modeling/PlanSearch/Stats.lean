/-!
# Statistics of a run
-/

namespace PlanSearch

structure Stats where
  steps : Nat := 0
  /-- Candidates that were scored. -/
  evaluated : Nat := 0
  accepted : Nat := 0
  /-- Candidates that could not be applied. -/
  illegal : Nat := 0
  /-- Times the best plan improved. -/
  improvements : Nat := 0
  /-- Score calculations, known at the end of the run. -/
  calculations : Nat := 0
  deriving DecidableEq, Repr, Inhabited

namespace Stats

def recordMove (accepted : Bool) (s : Stats) : Stats :=
  { s with evaluated := s.evaluated + 1, accepted := s.accepted + if accepted then 1 else 0 }

def recordIllegal (s : Stats) : Stats := { s with illegal := s.illegal + 1 }

def recordStep (s : Stats) : Stats := { s with steps := s.steps + 1 }

def recordImprovement (s : Stats) : Stats := { s with improvements := s.improvements + 1 }

/-- The accepted part of the evaluated candidates; zero when there were none. -/
def acceptanceRate (s : Stats) : Float :=
  if s.evaluated = 0 then 0.0 else s.accepted.toFloat / s.evaluated.toFloat

end Stats

end PlanSearch

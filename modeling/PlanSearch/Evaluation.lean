import PlanSearch.Mode
import PlanSearch.Move

/-!
# Scoring candidates

A candidate is scored by applying it, reading the score and taking it back. Several workers score a
batch of candidates on copies of one workspace; their answers come back in the order of the batch.
-/

namespace PlanSearch

variable {W S V : Type} {sh : Shape} [Workspace W S sh] [ToString V]

/-- The score that `m` leads to. In full assertion mode that score and the one after taking `m`
back are checked. -/
def scoreCandidate (mode : Mode) (m : Move S V) : Action W (Score sh) :=
  if mode.isFullyAsserted then do
    let before ← Workspace.scoreNow
    let undo := m.undo (Workspace.plan (← get))
    modify m.apply
    let score ← Workspace.checkedScore s!"after candidate {m.describe}"
    modify undo.apply
    let after ← Workspace.scoreNow
    if after = before then
      let _ ← Workspace.checkedScore s!"after undo of {m.describe}"
      return score
    else throw (.error (.undoCorruption m.describe before.toText after.toText))
  else do
    let undo := m.undo (Workspace.plan (← get))
    modify m.apply
    let score ← Workspace.scoreNow
    modify undo.apply
    return score

/-- Scores one candidate after another. An error is the answer for its candidate; a fault ends the
batch. -/
def scoreEach (mode : Mode) :
    List (Move S V) → W → Except Failure (List (Except SolverError (Score sh)))
  | [], _ => .ok []
  | m :: ms, w =>
    match scoreCandidate mode m w with
    | .ok score w => (.ok score :: ·) <$> scoreEach mode ms w
    | .error (.error e) w => (.error e :: ·) <$> scoreEach mode ms w
    | .error failure _ => .error failure

/-- `xs` in runs of `k` elements and a shorter last one. -/
def runsOf {α : Type} (k : Nat) (xs : List α) : List (List α) :=
  if _h : k = 0 ∨ xs = [] then []
  else xs.take k :: runsOf k (xs.drop k)
termination_by xs.length
decreasing_by
  have : 0 < xs.length := List.length_pos_iff.2 fun e => _h (.inr e)
  simp only [List.length_drop]
  omega

/-- Scores a batch with `threads` workers, each of which takes one run of the batch and a copy of
`w`. -/
def scoreBatch (mode : Mode) (threads : Nat) (batch : List (Move S V)) (w : W) :
    Except Failure (List (Except SolverError (Score sh))) := do
  let perWorker := (batch.length + threads - 1) / threads
  let answers ← (runsOf perWorker batch).mapM fun run => scoreEach mode run w
  return answers.flatten

end PlanSearch

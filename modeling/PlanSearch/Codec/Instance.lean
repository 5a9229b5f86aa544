import PlanSearch.Codec.Declaration
import PlanSearch.Codec.Editable
import PlanSearch.Codec.Search
import PlanSearch.Workspace.Incremental
import PlanSearch.Workspace.Recomputing

/-!
# Problem instances in documents

An instance is a plan to start from, with the variables to plan and the ways to score. A document
gives a board of queens, a schedule of tasks or a sheet with its network.
-/

namespace PlanSearch

open Decoder

structure Instance (S : Type) (sh : Shape) where
  plan : S
  definitions : List (Definition S Int64)
  network : Option (Network S sh) := none
  /-- The score from scratch. -/
  calculate : S → Checked (Score sh)
  /-- The weight of the child of a union. -/
  weight : S → Nat → Float := fun _ _ => 0.0

namespace Instance

variable {S : Type} {sh : Shape}

def domain (x : Instance S sh) : Domain S Int64 := ⟨x.definitions⟩

def surroundings (x : Instance S sh) : Surroundings S := ⟨x.domain, x.weight⟩

/-! ## Reading -/

def ofQueens (d : Document) : Except Refusal (Instance Queens.Board .simple) := do
  let rows ← (list cell (d.get "rows")).mapError .document
  let network ← Queens.network.mapError .failure
  let difficulty : Option (Queens.Board → Nat → Nat → Ordering) :=
    if d.flag "difficulty" then some fun _ a b => compare a b else none
  return {
    plan := { rows }
    definitions := [Queens.definition (d.flag "unassigned") difficulty]
    network := some network
    calculate := Queens.conflictScore }

def ofTasks (d : Document) : Except Refusal (Instance Tasks.Schedule .simple) := do
  let tasks ← (list Tasks.Task.decode (d.get "tasks")).mapError .document
  let priorities ← (list int64 (d.get "priorities")).mapError .document
  let workers ← (list int64 (d.get "workers")).mapError .document
  return {
    plan := { tasks }
    definitions := Tasks.definitions priorities workers
    calculate := Tasks.matchScore }

/-- Without a network every sheet scores zero. -/
def ofSheet (d : Document) : Except Refusal (Instance (Sheet sh) sh) := do
  let plan ← (Sheet.decode d).mapError .document
  let package ← (orElse "" text (d.get "package")).mapError .document
  let network : Option (Network (Sheet sh) sh) ←
    if d.has "build" then some <$> Draft.network package (d.get "build").items else pure none
  return {
    plan
    definitions := plan.definitions
    network
    calculate := fun s => match network with
      | none => .ok .zero
      | some n => n.fullScore s
    weight := fun s i => s.weights.getD i 0.0 }

/-- Hands the instance of a document to `k`. -/
def decode {α : Type} (d : Document)
    (k : {S : Type} → {sh : Shape} → [Plan S sh] → [Editable S] → Instance S sh → Except Refusal α) :
    Except Refusal α := do
  match d.get "fixture" with
  | .text "nqueens" => k (← ofQueens d)
  | .text "task" => k (← ofTasks d)
  | _ =>
    let sh ← (orElse .simple Shape.decode (d.get "score")).mapError .document
    k (← ofSheet d : Instance (Sheet sh) sh)

/-! ## Scoring -/

/-- Hands a workspace to `k`, an incremental one if it is asked for; only such a one can tell the
totals of its constraints. -/
def withWorkspace [Plan S sh] {α : Type} (x : Instance S sh) (incremental : Bool)
    (k : {W : Type} → [Workspace W S sh] → Option (Step W (List (ConstraintTotal sh))) → W →
      Except Refusal α) : Except Refusal α :=
  if incremental then
    match x.network with
    | none => .error (.document (.missing "build"))
    | some network =>
      k (some IncrementalWorkspace.totals) (IncrementalWorkspace.new network x.plan)
  else
    let w : RecomputingWorkspace S sh := { plan := x.plan, calculate := x.calculate }
    k none w

end Instance

end PlanSearch

import PlanSearch.Neighbourhood.Candidates
import PlanSearch.Error

/-!
# Placers

A placer lists the entities whose variable is still unassigned, the hardest ones first if it is
asked to, and walks through the values of each.
-/

namespace PlanSearch

structure Placer (S V : Type) where
  definition : Definition S V
  /-- Compares two entities where the hardest are to be placed first. -/
  difficulty : Option (S → Nat → Nat → Ordering) := none
  values : ValueWalk V := {}

namespace Placer

variable {S V : Type} {sh : Shape} [Plan S sh]

def new (d : Definition S V) : Placer S V := { definition := d }

def hardestFirst (d : Definition S V) : Except SolverError (Placer S V) :=
  match d.difficulty with
  | none => .error (.configuration
      s!"first_fit_decreasing needs an entity difficulty for {d.entityClass}.{d.cell.name}")
  | some difficulty => .ok { definition := d, difficulty := some difficulty }

/-- The movable entities without a value; equally hard ones stay in place. -/
def placements (p : Placer S V) (plan : S) : List Nat :=
  let unassigned := (Plan.movable plan p.definition.cell.family).filter fun e =>
    (p.definition.cell.get plan e).isNone
  match p.difficulty with
  | none => unassigned
  | some difficulty => unassigned.mergeSort fun a b => difficulty plan b a != .gt

/-- Turns to the values of `entity`. -/
def start (p : Placer S V) (plan : S) (entity : Nat) (s : Source) : Placer S V × Source :=
  let (values, s) := p.values.start plan p.definition .original entity s
  ({ p with values }, s)

/-- The next value of `entity`. -/
def next (p : Placer S V) (plan : S) (entity : Nat) (s : Source) :
    Option (Option V) × Placer S V × Source :=
  let (v, values, s) := p.values.next plan p.definition .original entity s
  (v, { p with values }, s)

def hear (p : Placer S V) (e : Event) : Placer S V := { p with values := p.values.hear e }

def describe (p : Placer S V) : String :=
  Outline.record "EntityPlacer"
    [("variable", p.definition.cell.describe), ("sorted", toString p.difficulty.isSome)]

end Placer

end PlanSearch

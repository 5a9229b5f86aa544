import PlanSearch.Workspace.Basic
import PlanSearch.Text.Quoted
import PlanSearch.Text.Outline

/-!
# Planning variables

A planning variable is a cell of every entity of a family. Its definition adds the values it may
take, whether it may stay without one, and which entities are harder to place than others.
-/

namespace PlanSearch

/-- How one variable of a family of entities is read and written. -/
structure Variable (S V : Type) where
  family : Nat
  name : String
  get : S → Nat → Option V
  set : S → Nat → Option V → S

namespace Variable

variable {S V W : Type} {sh : Shape} [Workspace W S sh]

/-- Both address the same cells. -/
def sameAs (x y : Variable S V) : Bool := x.family == y.family && x.name == y.name

/-- Writes a value and announces the change. -/
def assign (x : Variable S V) (entity : Nat) (value : Option V) (w : W) : W :=
  Workspace.afterChange ⟨x.family, entity⟩ <|
    Workspace.modify (fun plan => x.set plan entity value) <|
      Workspace.beforeChange ⟨x.family, entity⟩ w

def describe (x : Variable S V) : String := x.name ++ "#" ++ toString x.family

end Variable

/-- The values that a variable may take. -/
inductive ValueRange (S V : Type) where
  | listed (values : List V)
  | computed (values : S → List V)
  | perEntity (values : S → Nat → List V)

namespace ValueRange

variable {S V : Type}

def values (r : ValueRange S V) (plan : S) (entity : Nat) : List V :=
  match r with
  | listed values => values
  | computed values => values plan
  | perEntity values => values plan entity

def isPerEntity : ValueRange S V → Bool
  | perEntity _ => true
  | _ => false

def describe [ToString V] : ValueRange S V → String
  | listed values => Outline.apply "Listed" [Outline.list (values.map toString)]
  | computed _ => "Computed(..)"
  | perEntity _ => "EntityDependent(..)"

end ValueRange

/-- All that a search needs to know of a variable. -/
structure Definition (S V : Type) where
  entityClass : String
  cell : Variable S V
  range : ValueRange S V
  allowsUnassigned : Bool := false
  /-- Compares two entities; `gt` means that the first is harder to place. -/
  difficulty : Option (S → Nat → Nat → Ordering) := none

namespace Definition

variable {S V : Type}

/-- What may be assigned to an entity, with "unassigned" first where it is allowed. -/
def choices (d : Definition S V) (plan : S) (entity : Nat) : List (Option V) :=
  (if d.allowsUnassigned then [none] else []) ++ (d.range.values plan entity).map some

def describe [ToString V] (d : Definition S V) : String :=
  Outline.record "VariableDefinition"
    [("entity_class", Text.quote d.entityClass),
     ("variable", d.cell.describe),
     ("value_range", d.range.describe),
     ("allows_unassigned", toString d.allowsUnassigned),
     ("sorted_by_difficulty", toString d.difficulty.isSome)]

end Definition

end PlanSearch

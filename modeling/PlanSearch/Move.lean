import PlanSearch.Variable

/-!
# Moves

A move changes a plan: it assigns a value to one variable of one entity, exchanges the values of
two entities, or does several such things one after another. What it does to a plan is what its
leaves do in order. Undoing a move restores every slot that it touches.
-/

namespace PlanSearch

/-- A variable of one entity. -/
structure Slot (S V : Type) where
  cell : Variable S V
  entity : Nat

namespace Slot

variable {S V : Type}

def sameAs (a b : Slot S V) : Bool := a.entity == b.entity && a.cell.sameAs b.cell

def get (a : Slot S V) (plan : S) : Option V := a.cell.get plan a.entity

/-- The slots without later repetitions. -/
def distinct : List (Slot S V) → List (Slot S V)
  | [] => []
  | a :: rest => a :: (distinct rest).filter fun b => !a.sameAs b

end Slot

/-- A move without parts. -/
inductive Leaf (S V : Type) where
  | change (cell : Variable S V) (entity : Nat) (value : Option V)
  | swap (cell : Variable S V) (left right : Nat)

inductive Move (S V : Type) where
  | leaf (m : Leaf S V)
  | composite (parts : List (Move S V))

namespace Leaf

variable {S V W : Type} {sh : Shape}

/-- The slots that the move writes, in order. -/
def slots : Leaf S V → List (Slot S V)
  | change x entity _ => [⟨x, entity⟩]
  | swap x left right => [⟨x, left⟩, ⟨x, right⟩]

/-- The entity exists and may be changed. -/
def isOpen [Plan S sh] (x : Variable S V) (plan : S) (entity : Nat) : Bool :=
  entity < Plan.entityCount plan x.family && !Plan.isPinned plan ⟨x.family, entity⟩

/-- The move is allowed and changes a value. -/
def isDoable [Plan S sh] [DecidableEq V] (plan : S) : Leaf S V → Bool
  | change x entity value => isOpen x plan entity && x.get plan entity != value
  | swap x left right =>
    left != right && isOpen x plan left && isOpen x plan right &&
      x.get plan left != x.get plan right

def apply [Workspace W S sh] (m : Leaf S V) (w : W) : W :=
  match m with
  | change x entity value => x.assign entity value w
  | swap x left right =>
    let plan := Workspace.plan w
    let a := x.get plan left
    let b := x.get plan right
    x.assign right a (x.assign left b w)

/-- The move that takes `m` back, to be asked for before `m` is applied. -/
def undo (plan : S) : Leaf S V → Leaf S V
  | change x entity _ => change x entity (x.get plan entity)
  | swap x left right => swap x left right

def describe [ToString V] : Leaf S V → String
  | change x entity value =>
    x.name ++ "[" ++ toString entity ++ "] -> " ++ Outline.option (value.map toString)
  | swap x left right =>
    x.name ++ "[" ++ toString left ++ "] <-> " ++ x.name ++ "[" ++ toString right ++ "]"

end Leaf

namespace Move

variable {S V W : Type} {sh : Shape}

mutual

/-- The leaves, in the order in which they are applied. -/
def leaves : Move S V → List (Leaf S V)
  | leaf m => [m]
  | composite parts => leavesOf parts

def leavesOf : List (Move S V) → List (Leaf S V)
  | [] => []
  | m :: ms => leaves m ++ leavesOf ms

end

/-- The slots that the move writes, in order. -/
def slots (m : Move S V) : List (Slot S V) := m.leaves.flatMap Leaf.slots

/-- Some part of the move is allowed and changes a value. -/
def isDoable [Plan S sh] [DecidableEq V] (plan : S) (m : Move S V) : Bool :=
  m.leaves.any (Leaf.isDoable plan)

def apply [Workspace W S sh] (m : Move S V) (w : W) : W :=
  m.leaves.foldl (fun w leaf => leaf.apply w) w

/-- The move that takes `m` back, to be asked for before `m` is applied. -/
def undo (plan : S) (m : Move S V) : Move S V :=
  match m with
  | leaf m => leaf (m.undo plan)
  | m => composite ((Slot.distinct m.slots).map fun a => leaf (.change a.cell a.entity (a.get plan)))

mutual

def describe [ToString V] : Move S V → String
  | leaf m => m.describe
  | composite parts => Outline.list (describeAll parts)

def describeAll [ToString V] : List (Move S V) → List String
  | [] => []
  | m :: ms => describe m :: describeAll ms

end

end Move

end PlanSearch

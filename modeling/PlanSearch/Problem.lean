import PlanSearch.Score.Basic

/-!
# Planning problems

What a problem supplies: plans with numbered families of entities and facts, and the constraints'
names. A `Fact` addresses one member of a family; a `Plan` instance says how a plan is read.
-/

namespace PlanSearch

/-- The address of an entity or fact: its family and its place in it. -/
structure Fact where
  family : Nat
  index : Nat
  deriving DecidableEq, Repr, Hashable, Inhabited

namespace Fact

instance : ToString Fact := ⟨fun f => s!"{f.family}#{f.index}"⟩

/-- By family, then by place. -/
instance : Ord Fact := ⟨fun a b => (compare a.family b.family).then (compare a.index b.index)⟩

end Fact

/-- Plans of type `S` are scored with scores of shape `sh`. -/
class Plan (S : Type) (sh : outParam Shape) where
  score : S → Option (Score sh)
  setScore : Option (Score sh) → S → S
  entityCount : S → Nat → Nat
  /-- Moves never change a pinned entity. -/
  isPinned : S → Fact → Bool := fun _ _ => false
  /-- Planning variables without a value. -/
  unassignedCount : S → Nat := fun _ => 0

/-- The entities of a family that moves may change. -/
def Plan.movable {S : Type} {sh : Shape} [Plan S sh] (plan : S) (family : Nat) : List Nat :=
  (List.range (Plan.entityCount plan family)).filter fun i => !Plan.isPinned plan ⟨family, i⟩

/-- The name of a constraint within its package. -/
structure ConstraintName where
  package : String
  name : String
  deriving DecidableEq, Repr, Inhabited

namespace ConstraintName

def full (c : ConstraintName) : String :=
  if c.package.isEmpty then c.name else c.package ++ "/" ++ c.name

instance : ToString ConstraintName := ⟨full⟩

/-- By package, then by name. -/
instance : Ord ConstraintName :=
  ⟨fun a b => (compare a.package b.package).then (compare a.name b.name)⟩

end ConstraintName

/-- Whether matches of a constraint lower or raise the score. -/
inductive Impact where
  | penalty
  | reward
  deriving DecidableEq, Repr

def Impact.sign : Impact → Int64
  | penalty => -1
  | reward => 1

/-- How good a plan is: fewer unassigned variables first, then the higher score. -/
structure Rank (sh : Shape) where
  unassigned : Nat
  score : Score sh
  deriving DecidableEq

/-- `a` ranks strictly above `b`. -/
def Rank.beats {sh : Shape} (a b : Rank sh) : Bool :=
  a.unassigned < b.unassigned || (a.unassigned == b.unassigned && b.score < a.score)

end PlanSearch

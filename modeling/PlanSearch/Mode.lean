/-!
# Modes and orders

How far a run checks itself, and in which order candidates are visited.
-/

namespace PlanSearch

/-- How reproducible a run is and how much of it is checked. -/
inductive Mode where
  | nonReproducible
  | reproducible
  | fastAssert
  | fullAssert
  deriving DecidableEq, Repr

namespace Mode

instance : Inhabited Mode := ⟨reproducible⟩

def isReproducible (m : Mode) : Bool := m != nonReproducible

/-- Step scores are checked against scores from scratch. -/
def isAsserted : Mode → Bool
  | fastAssert | fullAssert => true
  | _ => false

/-- Candidate scores are checked too. -/
def isFullyAsserted (m : Mode) : Bool := m == fullAssert

def describe : Mode → String
  | nonReproducible => "NonReproducible"
  | reproducible => "Reproducible"
  | fastAssert => "FastAssert"
  | fullAssert => "FullAssert"

end Mode

/-- The order in which a selector visits its candidates. -/
inductive Order where
  /-- One after another, as they are listed. -/
  | original
  /-- Drawn with replacement, without end. -/
  | random
  /-- One after another, in a fresh permutation. -/
  | shuffled
  deriving DecidableEq, Repr

namespace Order

def isRandom (o : Order) : Bool := o == random

def describe : Order → String
  | original => "Original"
  | random => "Random"
  | shuffled => "Shuffled"

end Order

/-- An order as it is asked for: one of its own, or that of the surroundings. -/
inductive OrderChoice where
  | inherit
  | own (order : Order)
  deriving DecidableEq, Repr

namespace OrderChoice

instance : Inhabited OrderChoice := ⟨inherit⟩

/-- The order that is meant where `inherited` surrounds it; random where nothing was asked for. -/
def resolve : OrderChoice → OrderChoice → Order
  | own order, _ => order
  | inherit, own order => order
  | inherit, inherit => .random

end OrderChoice

end PlanSearch

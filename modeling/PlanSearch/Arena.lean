/-!
# Arenas

The accepted candidates of one step. A candidate keeps its index when others are taken out.
-/

namespace PlanSearch

structure Arena (α : Type) where
  slots : Array (Option α) := #[]

namespace Arena

variable {α : Type}

def empty : Arena α := {}

instance : Inhabited (Arena α) := ⟨empty⟩

/-- Stores `a` under the next index. -/
def push (x : Arena α) (a : α) : Nat × Arena α := (x.slots.size, ⟨x.slots.push (some a)⟩)

def get? (x : Arena α) (i : Nat) : Option α := (x.slots[i]?).join

/-- Takes the element at `i` out. -/
def take (x : Arena α) (i : Nat) : Option α × Arena α := (x.get? i, ⟨x.slots.setIfInBounds i none⟩)

/-- The number of indices given out. -/
def size (x : Arena α) : Nat := x.slots.size

/-- The elements still stored. -/
def toList (x : Arena α) : List α := x.slots.toList.filterMap id

end Arena

end PlanSearch

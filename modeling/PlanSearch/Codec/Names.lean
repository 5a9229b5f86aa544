import PlanSearch.Document.Decode
import PlanSearch.Network.Tuple

/-!
# Names, facts and keys in documents
-/

namespace PlanSearch

open Decoder

/-- A package and a name in it. -/
def ConstraintName.decode : Decoder ConstraintName := fun d => do
  return ⟨← text (d.item 0), ← text (d.item 1)⟩

/-- A family and an entity of it. -/
def Fact.decode : Decoder Fact := fun d => do
  return ⟨← natural (d.item 0), ← natural (d.item 1)⟩

/-- A machine word that stands for a key is read as a number with a sign. -/
def Key.decode : Decoder Key
  | .null => return .unit
  | .text s => return .text s
  | .table [("usize", n)] => do return .int (Int64.ofInt (← integer n))
  | .table [("entity", d)] => .entity <$> Fact.decode d
  | d => do
    match d.items with
    | [a, b] => return .pair (← int64 a) (← int64 b)
    | _ => .int <$> int64 d

/-- The things of a list, each of them once, smallest first. -/
def sortedOnce {α : Type} [Ord α] [BEq α] (xs : List α) : List α :=
  (xs.mergeSort fun a b => (compare a b).isLE).eraseReps

end PlanSearch

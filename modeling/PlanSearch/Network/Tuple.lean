import PlanSearch.Problem
import PlanSearch.Text.Quoted
import PlanSearch.Text.Outline

/-!
# Tuples

What travels through a constraint network: combinations of facts and group keys. The elements are
the identity of a tuple; the aggregates of its groups ride along and may change while the identity
stays the same.
-/

namespace PlanSearch

/-- What tuples are joined and grouped by. -/
inductive Key where
  | unit
  | int (n : Int64)
  | pair (a b : Int64)
  | entity (fact : Fact)
  | text (s : String)
  deriving DecidableEq, Repr, Hashable, Inhabited

namespace Key

/-- The place of the kind of key in the order. -/
def rank : Key → Nat
  | unit => 0
  | int _ => 1
  | pair _ _ => 2
  | entity _ => 3
  | text _ => 4

/-- By kind, then by content. -/
instance : Ord Key where
  compare
    | int a, int b => compare a b
    | pair a b, pair c d => (compare a c).then (compare b d)
    | entity a, entity b => compare a b
    | text a, text b => compare a b
    | a, b => compare a.rank b.rank

def describe : Key → String
  | unit => "Unit"
  | int n => Outline.apply "Int" [toString n]
  | pair a b => Outline.apply "Pair" [toString a, toString b]
  | entity f =>
    Outline.apply "Entity" [Outline.record "EntityRef"
      [("descriptor_index", toString f.family), ("entity_index", toString f.index)]]
  | text s => Outline.apply "Text" [Text.quote s]

end Key

/-- One position of a tuple. -/
inductive Element where
  | fact (f : Fact)
  | group (k : Key)
  deriving DecidableEq, Repr, Hashable, Inhabited

/-- The identity of a tuple within the node that produced it. -/
abbrev TupleId : Type := List Element

structure Tuple where
  id : TupleId
  aggregates : List Int64
  /-- The node that produced the tuple. -/
  origin : Nat
  deriving DecidableEq, Repr, Inhabited

namespace Tuple

def ofFact (f : Fact) (origin : Nat) : Tuple := ⟨[.fact f], [], origin⟩

def ofGroup (k : Key) (aggregate : Int64) (origin : Nat) : Tuple := ⟨[.group k], [aggregate], origin⟩

/-- The positions of `left`, then those of `right`. -/
def join (left right : Tuple) (origin : Nat) : Tuple :=
  ⟨left.id ++ right.id, left.aggregates ++ right.aggregates, origin⟩

def withOrigin (t : Tuple) (origin : Nat) : Tuple := { t with origin }

def arity (t : Tuple) : Nat := t.id.length

/-- The fact at position `p`, if there is one. -/
def fact? (t : Tuple) (p : Nat) : Option Fact :=
  match t.id[p]? with
  | some (.fact f) => some f
  | _ => none

/-- The key of the group at position `p`, if there is one. -/
def groupKey? (t : Tuple) (p : Nat) : Option Key :=
  match t.id[p]? with
  | some (.group k) => some k
  | _ => none

/-- The place of the fact at position `p` in its family. -/
def index (t : Tuple) (p : Nat) : Checked Nat :=
  match t.fact? p with
  | some f => .ok f.index
  | none => .error .undefined

/-- Aggregate `n`, counted from the left over all groups of the tuple. -/
def aggregate (t : Tuple) (n : Nat) : Checked Int64 :=
  match t.aggregates[n]? with
  | some x => .ok x
  | none => .error .undefined

def describe (t : Tuple) : String :=
  let elements := Outline.list <| t.id.map fun
    | .fact f => toString f
    | .group k => k.describe
  if t.aggregates.isEmpty then elements
  else elements ++ " => " ++ Outline.list (t.aggregates.map toString)

end Tuple

end PlanSearch

import PlanSearch.Network.Builder
import PlanSearch.Variable

/-!
# Queens on a board

One queen stands in each column, on a row or not yet placed. Two queens conflict when they share a
row, an ascending diagonal or a descending one; every conflict costs a point. `conflictScore` counts
the conflicting pairs one by one, and `network` finds them by joining queens on rows and diagonals.
-/

namespace PlanSearch.Queens

structure Board where
  /-- The row of the queen in each column. -/
  rows : List (Option Int64)
  score : Option (Score .simple) := none
  deriving DecidableEq

namespace Board

/-- The family of the queens. -/
def queens : Nat := 0

/-- The row of the queen in a column, if there is such a queen and it is placed. -/
def row? (b : Board) (column : Nat) : Option Int64 := (b.rows[column]?).join

/-- Places a queen, or takes it off the board. -/
def place (b : Board) (column : Nat) (row : Option Int64) : Board :=
  { b with rows := b.rows.set column row }

end Board

instance : Plan Board .simple where
  score := Board.score
  setScore score b := { b with score }
  entityCount b family := if family = Board.queens then b.rows.length else 0
  unassignedCount b := b.rows.countP Option.isNone

def row : Variable Board Int64 where
  family := Board.queens
  name := "row"
  get := Board.row?
  set := Board.place

/-- The rows of the board. -/
def allRows (b : Board) : List Int64 := (List.range b.rows.length).map Int64.ofNat

/-- The row as a planning variable. -/
def definition (allowsUnassigned : Bool) (difficulty : Option (Board → Nat → Nat → Ordering)) :
    Definition Board Int64 where
  entityClass := "Queen"
  cell := row
  range := .computed allRows
  allowsUnassigned
  difficulty

/-! ## Counting pairs -/

/-- The conflicts between two queens that are `distance` columns apart. -/
def conflictsBetween (distance : Nat) (a b : Option Int64) : Checked Int64 := do
  match a, b with
  | some a, some b =>
    let gap ← Checked.abs (← Checked.sub a b)
    let sameRow := if a = b then 1 else 0
    let sameDiagonal := if gap.toInt = distance then 1 else 0
    Checked.add sameRow sameDiagonal
  | _, _ => return 0

/-- The conflicts of a queen with those behind it, of which the next is `distance` columns away. -/
def conflictsOf (a : Option Int64) : Nat → Int64 → List (Option Int64) → Checked Int64
  | _, sum, [] => return sum
  | distance, sum, b :: bs => do
    conflictsOf a (distance + 1) (← Checked.add sum (← conflictsBetween distance a b)) bs

/-- The conflicts among all queens. -/
def conflicts : Int64 → List (Option Int64) → Checked Int64
  | sum, [] => return sum
  | sum, a :: as => do conflicts (← conflictsOf a 1 sum as) as

def conflictScore (b : Board) : Checked (Score .simple) := do
  return .single 0 (← Checked.neg (← conflicts 0 b.rows))

/-! ## Joining queens -/

/-- The column and row of the queen at the first position of a tuple; -1 where it is not placed. -/
def position (b : Board) (t : Tuple) : Checked (Int64 × Int64) := do
  let column ← t.index 0
  match b.rows[column]? with
  | none => throw .undefined
  | some row => return (Int64.ofNat column, row.getD (-1))

def isPlaced : Named (Board → Tuple → Checked Bool) where
  name? := some "placed"
  run b t := do
    match b.rows[← t.index 0]? with
    | none => throw .undefined
    | some row => return row.isSome

/-- The left one of two queens comes first. -/
def isOrdered : Named (Board → Tuple → Checked Bool) where
  name? := some "ordered"
  run _ t := do return (← t.index 0) < (← t.index 1)

def rowKey : Named (Board → Tuple → Checked Key) where
  name? := some "row"
  run b t := do return .int (← position b t).2

def ascendingKey : Named (Board → Tuple → Checked Key) where
  name? := some "ascending diagonal"
  run b t := do
    let (column, row) ← position b t
    return .int (← Checked.add row column)

def descendingKey : Named (Board → Tuple → Checked Key) where
  name? := some "descending diagonal"
  run b t := do
    let (column, row) ← position b t
    return .int (← Checked.sub row column)

/-- Every pair of placed queens with equal keys costs a point. -/
def penalizeEqual (placed : Stream) (name : String) (key : Named (Board → Tuple → Checked Key))
    (n : NetworkBuilder Board .simple) : Except Failure (NetworkBuilder Board .simple) := do
  let (pairs, n) ← (n.join placed placed key key).mapError .error
  let (ordered, n) ← (n.filter pairs isOrdered).mapError .error
  n.constrain name ordered .penalty (.single 0 1)

/-- The network of the three kinds of conflict. -/
def network : Except Failure (Network Board .simple) := do
  let n : NetworkBuilder Board .simple := { package := "nqueens" }
  let (queens, n) := n.forEach Board.queens
  let (placed, n) ← (n.filter queens isPlaced).mapError .error
  let n ← penalizeEqual placed "Row conflict" rowKey n
  let n ← penalizeEqual placed "Ascending diagonal conflict" ascendingKey n
  let n ← penalizeEqual placed "Descending diagonal conflict" descendingKey n
  n.build.mapError .error

end PlanSearch.Queens
